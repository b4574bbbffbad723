import Bytecode.Proofs.Decoding
/-!
# Overloads and the search for a method

A class may carry records that the decoder refuses. The search for a method looks at the
records in their order and decodes the signatures of those with its name and its number
of parameters, so a record that it refuses ends the search if it stands before the one
that is looked for (`ClassFile.Disturbs`). `lookup_is_undisturbed_iff` says when the only
record that declares a method is the one that is answered with.
-/
namespace Bytecode

namespace ClassFile

/-- The record has a method's name, and a signature that decodes to the method's descriptor. -/
structure Declares (method : MethodId) (record : Json) : Prop where
  name : record.get? "name" = some (.string method.name)
  signature : ∃ items params returns, record.get? "params" = some (.array items) ∧
    List.Forall₂ Ty.Encodes items params ∧ Json.Optionally Ty.Encodes (record.get? "returns") returns ∧
      signatureText params returns = method.descriptor

/-- The record has a method's name and lists as many parameters. -/
structure Candidate (method : MethodId) (record : Json) (items : List Json) : Prop where
  name : record.get? "name" = some (.string method.name)
  params : record.get? "params" = some (.array items)
  length : items.length = method.params.length

/-- The search for a method cannot go past the record: it has the method's name, but no list of parameters, or as many
of them and one that does not decode, or a result that does not. -/
inductive Disturbs (method : MethodId) (record : Json) : Fault → Prop
  | noList : record.get? "name" = some (.string method.name) →
      (∀ items, record.get? "params" ≠ some (.array items)) →
      Disturbs method record (.malformed (.notAnArray "params" record))
  | params {items fault} : Candidate method record items → Record.types items = .error fault →
      Disturbs method record fault
  | returns {items params fault} : Candidate method record items → Record.types items = .ok params →
      Record.returnType (record.get? "returns") = .error fault → Disturbs method record fault

theorem Disturbs.name {method : MethodId} {record : Json} {fault : Fault} (h : Disturbs method record fault) :
    record.get? "name" = some (.string method.name) := by
  cases h with
  | noList hname => exact hname
  | params hcandidate => exact hcandidate.name
  | returns hcandidate => exact hcandidate.name

/-- No class name in the signature of the record holds a `;`. -/
def UnambiguousRecord (record : Json) : Prop :=
  ∀ items params returns, record.get? "params" = some (.array items) → List.Forall₂ Ty.Encodes items params →
    Json.Optionally Ty.Encodes (record.get? "returns") returns → UnambiguousSignature params returns

/-- A descriptor tells the number of parameters, unless a class name holds a `;`. -/
theorem Declares.candidate {method : MethodId} {record : Json} (h : Declares method record)
    (hmethod : UnambiguousSignature method.params method.returns) (hrecord : UnambiguousRecord record) :
    ∃ items, Candidate method record items := by
  obtain ⟨items, params, returns, hitems, hparams, hreturns, hdescriptor⟩ := h.signature
  have hparsed := parseSignature_signatureText (hrecord items params returns hitems hparams hreturns)
  rw [hdescriptor, MethodId.descriptor, parseSignature_signatureText hmethod] at hparsed
  cases hparsed
  exact ⟨items, h.name, hitems, hparams.length_eq⟩

/-- The search for a method ends with the fault of a record, after records that it passes over. -/
inductive Raises (method : MethodId) : List Json → Fault → Prop
  | here {record records fault} : Disturbs method record fault → Raises method (record :: records) fault
  | later {record records fault} : ¬(Declares method record ∧ ∃ items, Candidate method record items) →
      (∀ fault', ¬Disturbs method record fault') → Raises method records fault →
      Raises method (record :: records) fault

section Search

variable {method : MethodId} {record : Json} {items : List Json} {fault : Fault}

theorem isFor_of_candidate (h : Candidate method record items) :
    isFor method record = (do
      let params ← Record.types items
      let returns ← Record.returnType (record.get? "returns")
      return signatureText params returns = method.descriptor) := by
  have hitems := (Record.recognizes_items "params" record).ok_iff items |>.2 h.params
  simp only [isFor, h.name, if_true, hitems, bind, Except.bind, h.length]

theorem isFor_of_declares (h : Declares method record) (hcandidate : Candidate method record items) :
    isFor method record = .ok true := by
  obtain ⟨items', params, returns, hitems, hparams, hreturns, hdescriptor⟩ := h.signature
  cases hitems.symm.trans hcandidate.params
  have htypes := (Record.recognizes_types items).ok_iff params |>.2 hparams
  have hreturn := (Record.recognizes_returnType (record.get? "returns")).ok_iff returns |>.2 hreturns
  rw [isFor_of_candidate hcandidate, htypes]
  simp [bind, Except.bind, hreturn, hdescriptor, pure, Except.pure]

theorem isFor_of_disturbs (h : Disturbs method record fault) : isFor method record = .error fault := by
  cases h with
  | noList hname hparams =>
    have hitems : Record.items "params" record = .error (.malformed (.notAnArray "params" record)) := by
      unfold Record.items
      split
      · rename_i items hget
        exact absurd hget (hparams items)
      · rfl
    simp only [isFor, hname, if_true, hitems, bind, Except.bind]
  | params hcandidate htypes =>
    rw [isFor_of_candidate hcandidate, htypes]
    rfl
  | returns hcandidate htypes hreturns =>
    rw [isFor_of_candidate hcandidate, htypes]
    simp only [bind, Except.bind, hreturns]

theorem Disturbs.not_declares (h : Disturbs method record fault) : ¬Declares method record := by
  intro hdeclares
  have hcandidate : ∃ items, Candidate method record items := by
    cases h with
    | noList _ hparams =>
      obtain ⟨items, _, _, hitems, -⟩ := hdeclares.signature
      exact absurd hitems (hparams items)
    | params hcandidate => exact ⟨_, hcandidate⟩
    | returns hcandidate => exact ⟨_, hcandidate⟩
  obtain ⟨items, hcandidate⟩ := hcandidate
  cases (isFor_of_disturbs h).symm.trans (isFor_of_declares hdeclares hcandidate)

theorem isFor_of_other_name (h : record.get? "name" ≠ some (.string method.name)) :
    isFor method record = .ok false := by
  unfold isFor
  split
  · rename_i name hget
    have hne : name ≠ method.name := fun heq => h (heq ▸ hget)
    rw [if_neg hne]
    rfl
  · rfl

theorem isFor_of_other_length (hname : record.get? "name" = some (.string method.name))
    (hitems : record.get? "params" = some (.array items)) (hlength : items.length ≠ method.params.length) :
    isFor method record = .ok false := by
  have hread := (Record.recognizes_items "params" record).ok_iff items |>.2 hitems
  simp only [isFor, hname, if_true, hread, bind, Except.bind, hlength, if_false, pure, Except.pure]

/-- A candidate is decoded: it is the method's record, it disturbs the search, or it has another descriptor. -/
theorem isFor_cases_of_candidate (h : Candidate method record items) :
    isFor method record = .ok true ∧ Declares method record ∨
      (∃ fault, isFor method record = .error fault ∧ Disturbs method record fault) ∨
      isFor method record = .ok false := by
  rw [isFor_of_candidate h]
  cases htypes : Record.types items with
  | error fault => exact .inr (.inl ⟨fault, rfl, .params h htypes⟩)
  | ok params =>
    cases hreturns : Record.returnType (record.get? "returns") with
    | error fault => exact .inr (.inl ⟨fault, rfl, .returns h htypes hreturns⟩)
    | ok returns =>
      by_cases hdescriptor : signatureText params returns = method.descriptor
      · have hparams := (Record.recognizes_types items).ok_iff params |>.1 htypes
        have hresult := (Record.recognizes_returnType _).ok_iff returns |>.1 hreturns
        refine .inl ⟨?_, h.name, items, params, returns, h.params, hparams, hresult, hdescriptor⟩
        simp [bind, Except.bind, pure, Except.pure, hdescriptor]
      · exact .inr (.inr (by simp [bind, Except.bind, pure, Except.pure, hdescriptor]))

theorem isFor_cases (method : MethodId) (record : Json) :
    isFor method record = .ok true ∧ Declares method record ∧ (∃ items, Candidate method record items) ∨
      (∃ fault, isFor method record = .error fault ∧ Disturbs method record fault) ∨
      isFor method record = .ok false := by
  by_cases hname : record.get? "name" = some (.string method.name)
  · by_cases hparams : ∃ items, record.get? "params" = some (.array items)
    · obtain ⟨items, hitems⟩ := hparams
      by_cases hlength : items.length = method.params.length
      · have hcandidate : Candidate method record items := ⟨hname, hitems, hlength⟩
        rcases isFor_cases_of_candidate hcandidate with ⟨hfor, hdeclares⟩ | hother
        · exact .inl ⟨hfor, hdeclares, items, hcandidate⟩
        · exact .inr hother
      · exact .inr (.inr (isFor_of_other_length hname hitems hlength))
    · have hdisturbs := Disturbs.noList hname fun items hitems => hparams ⟨items, hitems⟩
      exact .inr (.inl ⟨_, isFor_of_disturbs hdisturbs, hdisturbs⟩)
  · exact .inr (.inr (isFor_of_other_name hname))

/-- A record that neither is the method's nor disturbs the search is passed over. -/
theorem isFor_of_passed (hother : ¬(Declares method record ∧ ∃ items, Candidate method record items))
    (hquiet : ∀ fault, ¬Disturbs method record fault) : isFor method record = .ok false := by
  rcases isFor_cases method record with ⟨-, hfits⟩ | ⟨fault, -, hdisturbs⟩ | hpassed
  · exact absurd hfits hother
  · exact absurd hdisturbs (hquiet fault)
  · exact hpassed

theorem findMethod_cons (method : MethodId) (record : Json) (records : List Json) :
    findMethod method (record :: records) =
      (isFor method record).bind fun found => if found then .ok (some record) else findMethod method records := rfl

theorem findMethod_eq_error_iff {records : List Json} :
    findMethod method records = .error fault ↔ Raises method records fault := by
  induction records with
  | nil =>
    constructor
    · intro h
      cases h
    · intro h
      cases h
  | cons record records ih =>
    rw [findMethod_cons]
    constructor
    · intro h
      rcases isFor_cases method record with ⟨hfor, -⟩ | ⟨fault', hfor, hdisturbs⟩ | hfor
      · rw [hfor] at h
        cases h
      · rw [hfor] at h
        cases h
        exact .here hdisturbs
      · rw [hfor] at h
        refine .later ?_ ?_ (ih.1 h)
        · rintro ⟨hdeclares, items, hcandidate⟩
          cases hfor.symm.trans (isFor_of_declares hdeclares hcandidate)
        · intro fault' hdisturbs
          cases hfor.symm.trans (isFor_of_disturbs hdisturbs)
    · intro h
      cases h with
      | here hdisturbs =>
        rw [isFor_of_disturbs hdisturbs]
        rfl
      | later hother hquiet hrest =>
        rw [isFor_of_passed hother hquiet]
        exact ih.2 hrest

/-- What is before the record that is looked for is passed over, or ends the search. -/
theorem findMethod_append {before : List Json} (hbefore : ∀ other ∈ before, ¬Declares method other)
    (records : List Json) :
    (∀ other ∈ before, ∀ fault, ¬Disturbs method other fault) ∧
        findMethod method (before ++ records) = findMethod method records ∨
      (∃ other ∈ before, ∃ fault, Disturbs method other fault) ∧
        ∃ fault, findMethod method (before ++ records) = .error fault := by
  induction before with
  | nil => exact .inl ⟨fun other hother => absurd hother List.not_mem_nil, rfl⟩
  | cons other before ih =>
    obtain ⟨hother, hbefore⟩ := List.forall_mem_cons.1 hbefore
    rw [List.cons_append, findMethod_cons]
    by_cases hquiet : ∀ fault, ¬Disturbs method other fault
    · rw [isFor_of_passed (fun h => hother h.1) hquiet]
      rcases ih hbefore with ⟨hrest, hfind⟩ | ⟨⟨x, hx, hdisturbs⟩, hfind⟩
      · exact .inl ⟨List.forall_mem_cons.2 ⟨hquiet, hrest⟩, hfind⟩
      · exact .inr ⟨⟨x, List.mem_cons_of_mem _ hx, hdisturbs⟩, hfind⟩
    · obtain ⟨fault, hdisturbs⟩ := not_forall_not.1 hquiet
      rw [isFor_of_disturbs hdisturbs]
      exact .inr ⟨⟨other, List.mem_cons_self, fault, hdisturbs⟩, fault, rfl⟩

theorem declares_of_findMethod {records : List Json} (h : findMethod method records = .ok (some record)) :
    record ∈ records ∧ Declares method record := by
  induction records with
  | nil => cases h
  | cons head records ih =>
    rw [findMethod_cons] at h
    rcases isFor_cases method head with ⟨hfor, hdeclares, -⟩ | ⟨fault, hfor, -⟩ | hfor
    · rw [hfor] at h
      cases h
      exact ⟨List.mem_cons_self, hdeclares⟩
    · rw [hfor] at h
      cases h
    · rw [hfor] at h
      obtain ⟨hmem, hdeclares⟩ := ih h
      exact ⟨List.mem_cons_of_mem _ hmem, hdeclares⟩

end Search

/-- The code that the record of a method carries, or the fault of decoding it. -/
def decodedBody (record : Json) : Except Fault Code := (body record).bind Code.ofJson

theorem ofRecord_decodedBody {record : Json} {fault : Fault} (h : decodedBody record = .error fault) :
    fault.OfRecord :=
  ((recognizes_body record).bind fun records _ => Code.recognizes_ofJson records).blames fault h

variable {method : MethodId} {file : ClassFile} {record : Json}

theorem code_of_found (h : findMethod method file.methods = .ok (some record)) :
    file.code method = decodedBody record := by
  unfold code
  rw [h]
  rfl

/-- If the search finds nothing, the answer is what a record decodes to only if both are one fault. -/
theorem code_eq_iff_of_unfound (h : ∀ other, findMethod method file.methods ≠ .ok (some other)) :
    file.code method = decodedBody record ↔
      ∃ fault, Raises method file.methods fault ∧ decodedBody record = .error fault := by
  unfold code
  cases hfind : findMethod method file.methods with
  | error fault =>
    constructor
    · intro heq
      exact ⟨fault, findMethod_eq_error_iff.1 hfind, heq.symm⟩
    · rintro ⟨fault', hraises, hbody⟩
      cases hfind.symm.trans (findMethod_eq_error_iff.2 hraises)
      exact hbody.symm
  | ok found =>
    cases found with
    | some other => exact absurd hfind (h other)
    | none =>
      constructor
      · intro heq
        exact (ofRecord_decodedBody heq.symm).elim
      · rintro ⟨fault, hraises, -⟩
        cases hfind.symm.trans (findMethod_eq_error_iff.2 hraises)

end ClassFile

open ClassFile in
/-- Let a class file load in which one record declares a method. The lookup of the method answers with what the record
decodes to if and only if the record lists as many parameters as the method and none of the records before it disturbs
the search, or by chance the record raises the fault that ends the search. It does list as many parameters unless a
class name holds a `;`. -/
theorem lookup_is_undisturbed_iff {method : MethodId} {directory : Directory} {file : ClassFile}
    {before after : List Json} {record : Json}
    (hload : answer (Directory.load method.className directory) = .ok file)
    (hmethods : file.methods = before ++ record :: after) (hdeclares : Declares method record)
    (honly : ∀ other ∈ before ++ after, ¬Declares method other) :
    (answer (Directory.code method directory) = decodedBody record ↔
      (∃ items, Candidate method record items) ∧ (∀ other ∈ before, ∀ fault, ¬Disturbs method other fault) ∨
        ∃ fault, Raises method file.methods fault ∧ decodedBody record = .error fault) ∧
      (UnambiguousSignature method.params method.returns → UnambiguousRecord record →
        ∃ items, Candidate method record items) := by
  refine ⟨?_, hdeclares.candidate⟩
  rw [(Directory.code_eq method directory).1, hload]
  change file.code method = decodedBody record ↔ _
  obtain ⟨hbefore, hafter⟩ := List.forall_mem_append.1 honly
  by_cases hreached : (∃ items, Candidate method record items) ∧ ∀ other ∈ before, ∀ fault, ¬Disturbs method other fault
  · obtain ⟨⟨items, hcandidate⟩, hquiet⟩ := hreached
    have hfind : findMethod method file.methods = .ok (some record) := by
      rw [hmethods]
      rcases findMethod_append hbefore (record :: after) with ⟨-, hrest⟩ | ⟨⟨other, hother, fault, hdisturbs⟩, -⟩
      · rw [hrest, findMethod_cons, isFor_of_declares hdeclares hcandidate]
        rfl
      · exact absurd hdisturbs (hquiet other hother fault)
    exact ⟨fun _ => .inl ⟨⟨items, hcandidate⟩, hquiet⟩, fun _ => code_of_found hfind⟩
  · have hunfound : ∀ other, findMethod method file.methods ≠ .ok (some other) := by
      intro other hfind
      rw [hmethods] at hfind
      rcases findMethod_append hbefore (record :: after) with ⟨hquiet, hrest⟩ | ⟨-, fault, hfault⟩
      · rw [hrest, findMethod_cons] at hfind
        rcases isFor_cases method record with ⟨-, -, hcandidate⟩ | ⟨fault, hfor, -⟩ | hfor
        · exact hreached ⟨hcandidate, hquiet⟩
        · rw [hfor] at hfind
          cases hfind
        · rw [hfor] at hfind
          obtain ⟨hmem, hdeclares'⟩ := declares_of_findMethod hfind
          exact hafter other hmem hdeclares'
      · cases hfault.symm.trans hfind
    rw [code_eq_iff_of_unfound hunfound, or_iff_right hreached]

namespace Sample

/-- The record of a method `half` of one parameter. -/
def halfRecord (type : Text) (code : List Json) : Json := .object [("name", .string "half"),
  ("params", .array [.string type]), ("returns", .string type), ("code", .array code)]

def intHalf : Json := halfRecord "int"
  [.object [("opr", .string "load"), ("type", .string "int"), ("index", .number (.int 0))],
    .object [("opr", .string "return"), ("type", .string "int")]]

/-- An overload that the machine does not run. -/
def realHalf : Json := halfRecord "float" []

/-- A record of another name, without parameters. -/
def spin : Json := .object [("name", .string "spin")]

def half : MethodId := ⟨"C", "half", [.primitive .int], some (.primitive .int)⟩

def halfCode : Code := #[.load .int 0, .return (some .int)]

def halves (methods : List Json) : Directory :=
  .ofFiles "r" [("r/C.json", .json (.object [("name", .string "C"), ("methods", .array methods)]))]

theorem declares_intHalf : ClassFile.Declares half intHalf := by
  refine ⟨rfl, [.string "int"], [.primitive .int], some (.primitive .int), rfl, ?_, ?_, rfl⟩
  · exact .cons (.primitive (.name .int)) .nil
  · exact ⟨_, rfl, .primitive (.name .int)⟩

theorem disturbs_realHalf :
    ClassFile.Disturbs half realHalf (.unsupported (.operandType (some (.string "float")))) :=
  .params (show ClassFile.Candidate half realHalf [.string "float"] from ⟨rfl, rfl, rfl⟩) rfl

theorem not_declares_spin : ¬ClassFile.Declares half spin := fun h =>
  absurd (Json.string.inj (Option.some.inj h.name)) (by decide)

end Sample

open Sample ClassFile in
/-- A record that stands behind the method's own does not disturb the lookup, and neither does one of another name. -/
theorem half_is_found_before_overload :
    answer (Directory.code half (halves [spin, intHalf, realHalf])) = .ok halfCode := by
  have hload : answer (Directory.load half.className (halves [spin, intHalf, realHalf])) =
      .ok ⟨⟨"C", []⟩, [spin, intHalf, realHalf]⟩ := rfl
  have honly : ∀ other ∈ [spin] ++ [realHalf], ¬Declares half other := by
    simp only [List.cons_append, List.nil_append, List.forall_mem_cons]
    exact ⟨not_declares_spin, disturbs_realHalf.not_declares, fun _ h => absurd h List.not_mem_nil⟩
  have hquiet : ∀ other ∈ [spin], ∀ fault, ¬Disturbs half other fault := by
    simp only [List.forall_mem_singleton]
    exact fun fault h => absurd (Json.string.inj (Option.some.inj h.name)) (by decide)
  exact (lookup_is_undisturbed_iff hload rfl declares_intHalf honly).1.2
    (.inl ⟨⟨_, rfl, rfl, rfl⟩, hquiet⟩)

open Sample ClassFile in
/-- An overload on reals hides the one on integers that stands behind it: the only record that declares the method is
not reached. -/
theorem overload_hides_half : answer (Directory.load half.className (halves [realHalf, intHalf])) =
      .ok ⟨⟨"C", []⟩, [realHalf, intHalf]⟩ ∧ Declares half intHalf ∧ ¬Declares half realHalf ∧
    decodedBody intHalf = .ok halfCode ∧
    answer (Directory.code half (halves [realHalf, intHalf])) =
      .error (.unsupported (.operandType (some (.string "float")))) :=
  ⟨rfl, declares_intHalf, disturbs_realHalf.not_declares, rfl, rfl⟩

end Bytecode
