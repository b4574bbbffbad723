import Bytecode.Descriptor
import Bytecode.Proofs.Texts
/-!
# What a text names

The text of a method identifier is the key under which a store keeps the
method's body. We prove that it determines the method as long as class names
hold no `.`, method names no `:` and class types no `;`: reading a descriptor
stops exactly where writing it stopped, whatever follows
(`readDescriptor_descriptor`), and the first `.` and the first `:` of a text are
then the ones that separate its parts. The same holds of the texts of field
references, under which the values of static fields are kept.
-/
namespace Bytecode

/-- No class name in the type holds a `;`. -/
def Ty.Unambiguous : Ty → Prop
  | .primitive _ => True
  | .array element => element.Unambiguous
  | .object className => CodeUnit.ofChar ';' ∉ className

/-- The types of a signature hold no `;` in their class names. -/
structure UnambiguousSignature (params : List Ty) (returns : Option Ty) : Prop where
  params : ∀ type ∈ params, type.Unambiguous
  returns : ∀ type ∈ returns, type.Unambiguous

/-- The separators of a method's text occur in none of the parts they separate. -/
structure MethodId.Unambiguous (method : MethodId) : Prop where
  className : CodeUnit.ofChar '.' ∉ method.className
  name : CodeUnit.ofChar ':' ∉ method.name
  signature : UnambiguousSignature method.params method.returns

/-! ## Descriptors -/

theorem Primitive.ofLetter?_letter (p : Primitive) : Primitive.ofLetter? p.letter = some p := by
  cases p <;> decide

theorem Ty.descriptor_object (className : Text) :
    (Ty.object className).descriptor = CodeUnit.ofChar 'L' :: (className ++ [CodeUnit.ofChar ';']) := by
  have hlead : Text.ofString "L" = [CodeUnit.ofChar 'L'] := by decide
  have hsemi : Text.ofString ";" = [CodeUnit.ofChar ';'] := by decide
  simp [Ty.descriptor, hlead, hsemi]

/-- Reading stops where writing a type stopped. -/
theorem Ty.readDescriptor_descriptor {type : Ty} (h : type.Unambiguous) (whole rest : Text) :
    Ty.readDescriptor whole (type.descriptor ++ rest) = .ok (type, rest) := by
  induction type with
  | primitive p => simp [Ty.descriptor, Ty.readDescriptor, Primitive.ofLetter?_letter]
  | array element ih =>
    have hletter : Primitive.ofLetter? (CodeUnit.ofChar '[') = none := by decide
    simp [Ty.descriptor, Ty.readDescriptor, hletter, ih h, Except.map]
  | object className =>
    have hletter : Primitive.ofLetter? (CodeUnit.ofChar 'L') = none := by decide
    have hbracket : CodeUnit.ofChar 'L' ≠ CodeUnit.ofChar '[' := by decide
    -- The first `;` is the one behind the class name.
    have htext : (Ty.object className).descriptor ++ rest =
        CodeUnit.ofChar 'L' :: (className ++ CodeUnit.ofChar ';' :: rest) := by simp [Ty.descriptor_object]
    rw [htext]
    simp [Ty.readDescriptor, hletter, hbracket, Text.cutFirst_append h rest]

theorem Ty.ofDescriptor_descriptor {type : Ty} (h : type.Unambiguous) :
    Ty.ofDescriptor type.descriptor = .ok type := by
  have hread := Ty.readDescriptor_descriptor h type.descriptor []
  rw [List.append_nil] at hread
  simp [Ty.ofDescriptor, hread, bind, Except.bind]

/-- Equal descriptors are read back alike. -/
theorem Ty.descriptor_injective {type other : Ty} (h : type.Unambiguous) (hother : other.Unambiguous)
    (heq : type.descriptor = other.descriptor) : type = other := by
  have hread := Ty.ofDescriptor_descriptor h
  rw [heq, Ty.ofDescriptor_descriptor hother] at hread
  cases hread
  rfl

/-- No type's descriptor starts like the end of a parameter list or like the
mark of a method without a result. -/
theorem Ty.descriptor_lead (type : Ty) :
    ∃ lead tail, type.descriptor = lead :: tail ∧ lead ≠ CodeUnit.ofChar ')' ∧ lead ≠ CodeUnit.ofChar 'V' := by
  cases type with
  | primitive p => exact ⟨p.letter, [], rfl, by cases p <;> decide, by cases p <;> decide⟩
  | array element => exact ⟨CodeUnit.ofChar '[', element.descriptor, rfl, by decide, by decide⟩
  | object className =>
    exact ⟨CodeUnit.ofChar 'L', className ++ [CodeUnit.ofChar ';'], Ty.descriptor_object className, by decide, by decide⟩

theorem Ty.head?_descriptor (type : Ty) (rest : Text) :
    (type.descriptor ++ rest).head? ≠ some (CodeUnit.ofChar ')') := by
  obtain ⟨lead, tail, heq, hclose, -⟩ := type.descriptor_lead
  simp [heq, hclose]

theorem Ty.descriptor_ne_void (type : Ty) : type.descriptor ≠ Text.ofString "V" := by
  obtain ⟨lead, tail, heq, -, hvoid⟩ := type.descriptor_lead
  have htext : Text.ofString "V" = [CodeUnit.ofChar 'V'] := by decide
  simp [heq, htext, hvoid]

theorem readParams_flatMap {params : List Ty} (h : ∀ type ∈ params, type.Unambiguous) (whole rest : Text) :
    readParams whole (params.flatMap Ty.descriptor ++ CodeUnit.ofChar ')' :: rest) = .ok (params, rest) := by
  induction params with
  | nil => rw [readParams]; simp
  | cons type params ih =>
    have hread := Ty.readDescriptor_descriptor (h type (by simp)) whole
      (params.flatMap Ty.descriptor ++ CodeUnit.ofChar ')' :: rest)
    -- A type's descriptor is never taken for the end of the list.
    rw [List.flatMap_cons, List.append_assoc, readParams, if_neg (Ty.head?_descriptor type _)]
    split
    · rename_i fault hfault
      rw [hread] at hfault
      cases hfault
    · rename_i param after hok
      rw [hread] at hok
      cases hok
      simp [ih fun t ht => h t (by simp [ht]), Except.map]

/-- A signature is two halves with the parenthesis between them. -/
theorem signatureText_eq (params : List Ty) (returns : Option Ty) :
    signatureText params returns = CodeUnit.ofChar '(' :: params.flatMap Ty.descriptor ++
      CodeUnit.ofChar ')' :: returns.elim (Text.ofString "V") Ty.descriptor := by
  have hopen : Text.ofString "(" = [CodeUnit.ofChar '('] := by decide
  have hclose : Text.ofString ")" = [CodeUnit.ofChar ')'] := by decide
  cases returns <;> simp [signatureText, hopen, hclose]

theorem parseSignature_signatureText {params : List Ty} {returns : Option Ty}
    (h : UnambiguousSignature params returns) :
    parseSignature (signatureText params returns) = .ok (params, returns) := by
  have hopen : Text.ofString "(" = [CodeUnit.ofChar '('] := by decide
  have hlead : Text.dropLead? "(" (signatureText params returns) = some (params.flatMap Ty.descriptor ++
      CodeUnit.ofChar ')' :: returns.elim (Text.ofString "V") Ty.descriptor) := by
    rw [Text.dropLead?_eq_some_iff, signatureText_eq, hopen]
    rfl
  rw [parseSignature, hlead]
  simp only [readParams_flatMap h.params, bind, Except.bind]
  cases returns with
  | none => simp
  | some type => simp [Ty.descriptor_ne_void, Ty.ofDescriptor_descriptor (h.returns type rfl)]

/-- Equal signature texts are read back alike. -/
theorem signatureText_injective {params params' : List Ty} {returns returns' : Option Ty}
    (h : UnambiguousSignature params returns) (h' : UnambiguousSignature params' returns')
    (heq : signatureText params returns = signatureText params' returns') :
    params = params' ∧ returns = returns' := by
  have hread := parseSignature_signatureText h
  rw [heq, parseSignature_signatureText h'] at hread
  cases hread
  exact ⟨rfl, rfl⟩

/-! ## Method texts -/

/-- The parts of a method's text, with their two separators. -/
theorem MethodId.text_eq (method : MethodId) :
    method.text = method.className ++ CodeUnit.ofChar '.' ::
      (method.name ++ CodeUnit.ofChar ':' :: method.descriptor) := by
  have hdot : Text.ofString "." = [CodeUnit.ofChar '.'] := by decide
  have hcolon : Text.ofString ":" = [CodeUnit.ofChar ':'] := by decide
  simp [MethodId.text, hdot, hcolon]

/-- Two methods whose parts hold no separators have different texts. -/
theorem MethodId.text_injective {method method' : MethodId} (h : method.Unambiguous) (h' : method'.Unambiguous)
    (heq : method.text = method'.text) : method = method' := by
  rw [MethodId.text_eq, MethodId.text_eq] at heq
  obtain ⟨hclass, hrest⟩ := Text.append_sep_inj h.className h'.className heq
  obtain ⟨hname, hdescriptor⟩ := Text.append_sep_inj h.name h'.name hrest
  -- Descriptors are not cut further but read back.
  obtain ⟨hparams, hreturns⟩ := signatureText_injective h.signature h'.signature hdescriptor
  cases method
  cases method'
  simp_all

/-! ## Field references -/

/-- The separators of a field reference's text occur in none of the parts they separate. -/
structure FieldRef.Unambiguous (field : FieldRef) : Prop where
  className : CodeUnit.ofChar '.' ∉ field.className
  name : CodeUnit.ofChar ':' ∉ field.name
  type : field.type.Unambiguous

theorem FieldRef.text_eq (field : FieldRef) :
    field.text = field.className ++ CodeUnit.ofChar '.' ::
      (field.name ++ CodeUnit.ofChar ':' :: field.type.descriptor) := by
  have hdot : Text.ofString "." = [CodeUnit.ofChar '.'] := by decide
  have hcolon : Text.ofString ":" = [CodeUnit.ofChar ':'] := by decide
  simp [FieldRef.text, hdot, hcolon]

/-- Two field references whose parts hold no separators have different texts. -/
theorem FieldRef.text_injective {field field' : FieldRef} (h : field.Unambiguous) (h' : field'.Unambiguous)
    (heq : field.text = field'.text) : field = field' := by
  rw [FieldRef.text_eq, FieldRef.text_eq] at heq
  obtain ⟨hclass, hrest⟩ := Text.append_sep_inj h.className h'.className heq
  obtain ⟨hname, hdescriptor⟩ := Text.append_sep_inj h.name h'.name hrest
  have htype := Ty.descriptor_injective h.type h'.type hdescriptor
  cases field
  cases field'
  simp_all

end Bytecode
