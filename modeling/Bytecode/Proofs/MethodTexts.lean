import Bytecode.Proofs.Descriptors
/-!
# Reading back method identifiers

`MethodId.WellFormed` says which identifiers a text can name: reading makes no
others (`MethodId.wellFormed_of_parse`), and the text of one of them is cut where
it was put together, since no separator occurs in a part and nothing is trimmed
(`MethodId.parse_text`). So an accepted text, with dots or slashes and with blanks
around its halves, has one canonical text, and two methods never share it.
-/
namespace Bytecode

/-- A part of a method's text: not empty, and without the separators. -/
structure PlainPart (t : Text) : Prop where
  ne_nil : t ≠ []
  no_dot : CodeUnit.ofChar '.' ∉ t
  no_colon : CodeUnit.ofChar ':' ∉ t

/-- Class and name are plain parts without a blank where the text between them begins and ends. -/
structure MethodId.WellFormed (method : MethodId) : Prop where
  className : PlainPart method.className
  first : ∀ u ∈ method.className.head?, u.isBlank = false
  name : PlainPart method.name
  last : ∀ u ∈ method.name.getLast?, u.isBlank = false
  signature : UnambiguousSignature method.params method.returns

theorem MethodId.WellFormed.unambiguous {method : MethodId} (h : method.WellFormed) : method.Unambiguous :=
  ⟨h.className.no_dot, h.name.no_colon, h.signature⟩

/-! ## Ends of descriptors -/

theorem Ty.descriptor_ne_nil (type : Ty) : type.descriptor ≠ [] := by
  obtain ⟨lead, tail, heq, -, -⟩ := type.descriptor_lead
  simp [heq]

theorem Ty.getLast?_descriptor (type : Ty) : ∀ u ∈ type.descriptor.getLast?, u.isBlank = false := by
  induction type with
  | primitive p =>
    intro u hu
    cases hu
    cases p <;> decide
  | array element ih =>
    intro u hu
    rw [Ty.descriptor, List.getLast?_cons_of_ne_nil element.descriptor_ne_nil] at hu
    exact ih u hu
  | object className =>
    intro u hu
    rw [Ty.descriptor_object, ← List.cons_append, List.getLast?_append_cons] at hu
    cases hu
    decide

/-- Nothing is trimmed from a signature. -/
theorem bare_signatureText (params : List Ty) (returns : Option Ty) : Text.Bare (signatureText params returns) := by
  have hfirst : ∀ u ∈ (CodeUnit.ofChar '(' :: params.flatMap Ty.descriptor).head?, u.isBlank = false := by
    intro u hu
    cases hu
    decide
  rw [signatureText_eq]
  cases returns with
  | none =>
    have hvoid : Text.ofString "V" = [CodeUnit.ofChar 'V'] := by decide
    refine (Text.bare_append_cons_iff _ (by simp) (by simp [hvoid])).2 ⟨hfirst, fun u hu => ?_⟩
    rw [Option.elim, hvoid] at hu
    cases hu
    decide
  | some type =>
    exact (Text.bare_append_cons_iff _ (by simp) type.descriptor_ne_nil).2 ⟨hfirst, type.getLast?_descriptor⟩

/-! ## Slashes -/

theorem withSlashes_eq_self {className : Text} (h : CodeUnit.ofChar '.' ∉ className) :
    withSlashes className = className := by
  have hsame : withSlashes className = className.map id := by
    refine List.map_congr_left fun u hu => if_neg ?_
    rintro rfl
    exact h hu
  rw [hsame, List.map_id]

theorem mem_withSlashes {className : Text} {u : CodeUnit} (h : u ∈ withSlashes className) :
    u = CodeUnit.ofChar '/' ∨ u ∈ className ∧ u ≠ CodeUnit.ofChar '.' := by
  obtain ⟨w, hw, rfl⟩ := List.mem_map.1 h
  split
  · exact .inl rfl
  · rename_i hdot
    exact .inr ⟨hw, hdot⟩

theorem head?_withSlashes {className : Text} (h : ∀ u ∈ className.head?, u.isBlank = false) :
    ∀ u ∈ (withSlashes className).head?, u.isBlank = false := by
  cases className with
  | nil => exact h
  | cons w rest =>
    intro u hu
    rw [withSlashes, List.map_cons, List.head?_cons, Option.mem_some_iff] at hu
    subst hu
    split
    · decide
    · exact h w rfl

/-- With slashes for its dots, what stands before the last dot is a plain part. -/
theorem plainPart_withSlashes {className : Text} (hne : className ≠ []) (hcolon : CodeUnit.ofChar ':' ∉ className) :
    PlainPart (withSlashes className) where
  ne_nil := by simpa [withSlashes] using hne
  no_dot hdot := by
    rcases mem_withSlashes hdot with hslash | ⟨-, hne⟩
    · exact absurd hslash (by decide)
    · exact hne rfl
  no_colon hmem := by
    rcases mem_withSlashes hmem with hslash | ⟨hmem, -⟩
    · exact absurd hslash (by decide)
    · exact hcolon hmem

namespace MethodId

/-! ## Reading -/

/-- The text of a well-formed identifier is cut where it was put together. -/
theorem parse_text {method : MethodId} (h : method.WellFormed) : parse method.text = .ok method := by
  have hqualified : Text.Bare (method.className ++ CodeUnit.ofChar '.' :: method.name) :=
    (Text.bare_append_cons_iff _ h.className.ne_nil h.name.ne_nil).2 ⟨h.first, h.last⟩
  have hcolon : CodeUnit.ofChar ':' ∉ method.className ++ CodeUnit.ofChar '.' :: method.name := by
    simp only [List.mem_append, List.mem_cons, not_or]
    exact ⟨h.className.no_colon, by decide, h.name.no_colon⟩
  have htext : method.text =
      (method.className ++ CodeUnit.ofChar '.' :: method.name) ++ CodeUnit.ofChar ':' :: method.descriptor := by
    simp [method.text_eq]
  have hdescriptor : Text.trim method.descriptor = method.descriptor :=
    Text.trim_eq_self (bare_signatureText method.params method.returns)
  have hsignature : parseSignature method.descriptor = .ok (method.params, method.returns) :=
    parseSignature_signatureText h.signature
  rw [parse, htext, Text.cutFirst_append hcolon]
  simp only [Text.trim_eq_self hqualified, Text.cutLast_append h.name.no_dot, hdescriptor, hsignature]
  simp [h.className.ne_nil, h.name.ne_nil, withSlashes_eq_self h.className.no_dot, bind, Except.bind]

/-- Whatever text was accepted, the identifier is well formed. -/
theorem wellFormed_of_parse {t : Text} {method : MethodId} (h : parse t = .ok method) : method.WellFormed := by
  unfold parse at h
  split at h
  · cases h
  · rename_i qualified descriptor hfirst
    split at h
    · cases h
    · rename_i className name hlast
      split at h
      · cases h
      · rename_i hparts
        simp only [Bool.or_eq_true, List.isEmpty_iff, not_or] at hparts
        obtain ⟨⟨params, returns⟩, hsignature, hmethod⟩ := except_bind_eq_ok.1 h
        cases hmethod
        obtain ⟨hdot, hqualified⟩ := Text.cutLast_eq_some hlast
        -- Trimming leaves no separator that was not there.
        have hcolon : CodeUnit.ofChar ':' ∉ className ++ CodeUnit.ofChar '.' :: name := by
          rw [← hqualified]
          exact fun hmem => (Text.cutFirst_eq_some hfirst).1 (Text.mem_of_mem_trim hmem)
        simp only [List.mem_append, List.mem_cons, not_or] at hcolon
        have hbare := hqualified ▸ Text.bare_trim qualified
        obtain ⟨hbegins, hends⟩ := (Text.bare_append_cons_iff _ hparts.1 hparts.2).1 hbare
        exact ⟨plainPart_withSlashes hparts.1 hcolon.1, head?_withSlashes hbegins, ⟨hparts.2, hdot, hcolon.2.2⟩, hends,
          (parseSignature_sound hsignature).1⟩

/-- Well-formed identifiers are read back from their texts, every accepted text names one of them, whose own text is
then accepted for the same one, and different ones have different texts. -/
theorem texts_name_methods :
    (∀ method : MethodId, method.WellFormed → parse method.text = .ok method) ∧
      (∀ t method, parse t = .ok method → method.WellFormed ∧ parse method.text = .ok method) ∧
      ∀ method method' : MethodId, method.WellFormed → method'.WellFormed → method.text = method'.text →
        method = method' := by
  refine ⟨fun method h => parse_text h, fun t method h => ?_, fun method method' h h' heq => ?_⟩
  · have hmethod := wellFormed_of_parse h
    exact ⟨hmethod, parse_text hmethod⟩
  · exact text_injective h.unambiguous h'.unambiguous heq

end MethodId

end Bytecode
