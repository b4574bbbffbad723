import Bytecode.Proofs.Sources
/-!
# Answers from the history of a registry

A registry answers from all that was registered, in the order in which it was: a
class has the fields of all its registrations, one behind the other, and a method
the body that was registered for it last. Bodies are kept under texts, which tell
methods apart as long as names hold no `:` and class types no `;`, so one
registration replaces the body of its own method and of no other one
(`Registry.get?_register`), and by induction the last one counts.
-/
namespace Bytecode

/-- The name and the types of a method hold none of the marks that its key puts between them. -/
structure MethodId.Keyed (method : MethodId) : Prop where
  name : CodeUnit.ofChar ':' ∉ method.name
  signature : UnambiguousSignature method.params method.returns

namespace Registration

/-- A body is registered for a method whose key tells it apart. -/
def Keyed : Registration → Prop
  | .fields .. => True
  | .method m _ => m.Keyed

/-- The body that is registered for a method. -/
def codeOf? (method : MethodId) : Registration → Option Code
  | .fields .. => none
  | .method m code => if m = method then some code else none

/-- The bodies that were registered for a method, one after another. -/
def codesOf (method : MethodId) (registrations : List Registration) : List Code :=
  registrations.filterMap (codeOf? method)

/-- The body that was registered for a method last. -/
def latest? (method : MethodId) (registrations : List Registration) : Option Code :=
  (codesOf method registrations).getLast?

theorem latest?_concat (method : MethodId) (registrations : List Registration) (last : Registration) :
    latest? method (registrations ++ [last]) = (last.codeOf? method).or (latest? method registrations) := by
  cases h : last.codeOf? method <;> simp [latest?, codesOf, h]

theorem className_of_codeOf? {method : MethodId} {registration : Registration} {code : Code}
    (h : registration.codeOf? method = some code) : registration.className = method.className := by
  cases registration with
  | fields => cases h
  | method m body =>
    simp only [codeOf?] at h
    split at h
    · rename_i hm
      exact congrArg MethodId.className hm
    · cases h

/-- A class is known if one of its methods has a body. -/
theorem known_of_latest? {method : MethodId} {registrations : List Registration} {code : Code}
    (h : latest? method registrations = some code) : Known method.className registrations := by
  obtain ⟨registration, hmem, hcode⟩ := List.mem_filterMap.1 (List.mem_of_getLast? h)
  exact ⟨registration, hmem, className_of_codeOf? hcode⟩

end Registration

namespace Registry

variable {registry : Registry} {registration : Registration} {registrations : List Registration} {method : MethodId}

/-- Methods of one class are told apart by their keys. -/
theorem eq_of_methodKey_eq {other : MethodId} (h : method.Keyed) (hother : other.Keyed)
    (hclass : method.className = other.className) (hkey : methodKey method = methodKey other) : method = other := by
  obtain ⟨hname, hdescriptor⟩ := (methodKey_eq_iff h.name hother.name).1 hkey
  obtain ⟨hparams, hreturns⟩ := signatureText_injective h.signature hother.signature hdescriptor
  cases method
  cases other
  simp_all

/-- One registration: it gives its own method a body, and leaves all others theirs. -/
theorem get?_register (hmethod : method.Keyed) (h : registration.Keyed) :
    Table.get? (methodKey method) ((registry.register registration).registered method.className).methods =
      (registration.codeOf? method).or
        (Table.get? (methodKey method) (registry.registered method.className).methods) := by
  rw [registered_register]
  cases registration with
  | fields className fields => rfl
  | method m code =>
    by_cases hsame : m = method
    · subst hsame
      simp [Registration.bodyOf?, Registration.codeOf?]
    · simp only [Registration.codeOf?, if_neg hsame, Option.none_or, Registration.bodyOf?]
      by_cases hclass : m.className = method.className
      · have hkey : methodKey method ≠ methodKey m := by
          intro hkey
          exact hsame (eq_of_methodKey_eq h hmethod hclass hkey.symm)
        rw [if_pos hclass]
        exact Table.get?_insert_of_ne hkey _ _
      · rw [if_neg hclass]

/-- All registrations: a method has the body that was registered for it last. -/
theorem get?_ofRegistrations (hmethod : method.Keyed) (h : ∀ r ∈ registrations, r.Keyed) :
    Table.get? (methodKey method) ((ofRegistrations registrations).registered method.className).methods =
      Registration.latest? method registrations := by
  induction registrations using List.reverseRecOn with
  | nil => rfl
  | append_singleton registrations last ih =>
    have hlast : last.Keyed := h last (by simp)
    have hbefore : ∀ r ∈ registrations, r.Keyed := fun r hr => h r (by simp [hr])
    rw [ofRegistrations_concat, get?_register hmethod hlast, ih hbefore, Registration.latest?_concat]

/-! ## Answers -/

/-- What is answered about classes and methods after some registrations. -/
structure Answers (registrations : List Registration) (registry : Registry) : Prop where
  fields : ∀ className, Registration.Known className registrations →
    registry.classInfo className =
      .ok ⟨className, (registrations.filterMap (Registration.fieldsOf? className)).flatten⟩
  noClass : ∀ className, ¬Registration.Known className registrations →
    registry.classInfo className = .error (.image (.classNotFound className))
  body : ∀ method : MethodId, method.Keyed → ∀ code, Registration.latest? method registrations = some code →
    registry.code method = .ok code
  noMethod : ∀ method : MethodId, method.Keyed → Registration.latest? method registrations = none →
    Registration.Known method.className registrations → registry.code method = .error (.image (.methodNotFound method))
  noMethodOfClass : ∀ method : MethodId, ¬Registration.Known method.className registrations →
    registry.code method = .error (.image (.classNotFound method.className))

/-- The answer about a method of a class that is known. -/
theorem code_of_known (hmethod : method.Keyed) (h : ∀ r ∈ registrations, r.Keyed)
    (hknown : Registration.Known method.className registrations) :
    (ofRegistrations registrations).code method =
      match Registration.latest? method registrations with
        | some code => .ok code
        | none => .error (.image (.methodNotFound method)) := by
  rw [code, find_of_known hknown, ← get?_ofRegistrations hmethod h]
  rfl

theorem code_of_unknown (h : ¬Registration.Known method.className registrations) :
    (ofRegistrations registrations).code method = .error (.image (.classNotFound method.className)) := by
  rw [code, find_of_unknown h]
  rfl

theorem answers_ofRegistrations (h : ∀ r ∈ registrations, r.Keyed) :
    (ofRegistrations registrations).Answers registrations where
  fields className hknown := by
    rw [classInfo, find_of_known hknown, registered_ofRegistrations]
    rfl
  noClass className hunknown := by
    rw [classInfo, find_of_unknown hunknown]
    rfl
  body method hmethod code hlatest := by
    rw [code_of_known hmethod h (Registration.known_of_latest? hlatest), hlatest]
  noMethod method hmethod hlatest hknown := by
    rw [code_of_known hmethod h hknown, hlatest]
  noMethodOfClass method hunknown := code_of_unknown hunknown

/-- The answer about a method rests on what was registered for it, and on whether its class is known. -/
theorem code_eq_of_codesOf {others : List Registration} (hmethod : method.Keyed) (h : ∀ r ∈ registrations, r.Keyed)
    (hothers : ∀ r ∈ others, r.Keyed)
    (hcodes : Registration.codesOf method others = Registration.codesOf method registrations)
    (hknown : Registration.Known method.className others ↔ Registration.Known method.className registrations) :
    (ofRegistrations others).code method = (ofRegistrations registrations).code method := by
  by_cases hthere : Registration.Known method.className registrations
  · rw [code_of_known hmethod hothers (hknown.2 hthere), code_of_known hmethod h hthere, Registration.latest?, hcodes,
      Registration.latest?]
  · rw [code_of_unknown fun hother => hthere (hknown.1 hother), code_of_unknown hthere]

theorem toOption_code (hmethod : method.Keyed) (h : ∀ r ∈ registrations, r.Keyed) :
    ((ofRegistrations registrations).code method).toOption = Registration.latest? method registrations := by
  by_cases hknown : Registration.Known method.className registrations
  · rw [code_of_known hmethod h hknown]
    cases Registration.latest? method registrations <;> rfl
  · rw [code_of_unknown hknown]
    cases hlatest : Registration.latest? method registrations with
    | none => rfl
    | some code => exact absurd (Registration.known_of_latest? hlatest) hknown

end Registry

/-- A registry answers from all that was registered. Two registries for which the same bodies
were registered for a method, in the same order, find the same body for it, or both find none,
whatever else was registered and wherever; the reason for finding none is the same as well, if
both know the method's class or neither does. -/
theorem registry_answers_history {registrations : List Registration} (h : ∀ r ∈ registrations, r.Keyed) :
    (Registry.ofRegistrations registrations).Answers registrations ∧
      ∀ (method : MethodId) (others : List Registration), method.Keyed → (∀ r ∈ others, r.Keyed) →
        Registration.codesOf method others = Registration.codesOf method registrations →
        ((Registry.ofRegistrations others).code method).toOption =
            ((Registry.ofRegistrations registrations).code method).toOption ∧
          ((Registration.Known method.className others ↔ Registration.Known method.className registrations) →
            (Registry.ofRegistrations others).code method = (Registry.ofRegistrations registrations).code method) := by
  refine ⟨Registry.answers_ofRegistrations h, fun method others hmethod hothers hcodes => ⟨?_, ?_⟩⟩
  · rw [Registry.toOption_code hmethod hothers, Registry.toOption_code hmethod h, Registration.latest?, hcodes,
      Registration.latest?]
  · exact Registry.code_eq_of_codesOf hmethod h hothers hcodes

namespace Sample

def put : MethodId := ⟨"Box", "put", [.primitive .int], none⟩

def putAll : MethodId := ⟨"Box", "put", [.array (.primitive .int)], none⟩

def size : FieldInfo := ⟨"size", .primitive .int, false, none⟩

def items : FieldInfo := ⟨"items", .array (.primitive .int), false, none⟩

/-- A class in pieces, in which one method is replaced and an overload of it is not. -/
def pieces : List Registration :=
  [.method put #[.return none], .fields "Box" [size], .method putAll #[.dup, .return none],
    .fields "Box" [items], .method put #[.push (.int 0), .return none]]

theorem keyed_put : put.Keyed where
  name := by decide
  signature := ⟨by simp [put, Ty.Unambiguous], by simp [put]⟩

theorem keyed_putAll : putAll.Keyed where
  name := by decide
  signature := ⟨by simp [putAll, Ty.Unambiguous], by simp [putAll]⟩

theorem keyed_pieces : ∀ r ∈ pieces, r.Keyed := by
  simp [pieces, Registration.Keyed, keyed_put, keyed_putAll]

end Sample

open Sample Registry in
/-- The last body of the method is found, and its overload's as if nothing else had been registered. -/
theorem replaced_body_is_found :
    (∀ r ∈ pieces, r.Keyed) ∧
      (ofRegistrations pieces).classInfo "Box" = .ok ⟨"Box", [size, items]⟩ ∧
      (ofRegistrations pieces).classInfo "Bin" = .error (.image (.classNotFound "Bin")) ∧
      (ofRegistrations pieces).code put = .ok #[.push (.int 0), .return none] ∧
      (ofRegistrations [.method putAll #[.dup, .return none]]).code putAll = (ofRegistrations pieces).code putAll := by
  obtain ⟨hanswers, hsame⟩ := registry_answers_history keyed_pieces
  have hbin : ¬Registration.Known "Bin" pieces := by
    simp only [Registration.Known, pieces, List.exists_mem_cons_iff, Registration.className]
    decide
  have halone : ∀ r ∈ [Registration.method putAll #[.dup, .return none]], r.Keyed := by
    simp [Registration.Keyed, keyed_putAll]
  refine ⟨keyed_pieces, hanswers.fields "Box" ⟨_, List.mem_cons_self, rfl⟩, hanswers.noClass "Bin" hbin,
    hanswers.body put keyed_put _ rfl, (hsame putAll _ keyed_putAll halone rfl).2 ?_⟩
  exact iff_of_true ⟨_, List.mem_cons_self, rfl⟩ ⟨_, List.mem_cons_self, rfl⟩

end Bytecode
