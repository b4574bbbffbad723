import Bytecode.Proofs.Lookup
import Mathlib.Data.List.Induction
/-!
# Registering classes

A registry is what fields and methods were registered, one after another. What it
knows of a class is told by the registrations for that class alone
(`Registry.registered_ofRegistrations`), so in what order different classes and methods were
registered does not matter.
-/
namespace Bytecode

/-- Where every key has one entry, binding the entries one after another gives them back. -/
theorem Table.ofEntries_eq_self {κ ν : Type} [DecidableEq κ] {entries : List (κ × ν)}
    (h : (entries.map (·.1)).Nodup) : ofEntries entries = entries := by
  induction entries using List.reverseRecOn with
  | nil => rfl
  | append_singleton entries entry ih =>
    rw [List.map_append, List.nodup_append] at h
    obtain ⟨hentries, -, hapart⟩ := h
    have hlast : ofEntries (entries ++ [entry]) = insert entry.1 entry.2 (ofEntries entries) := List.foldl_append ..
    have hfresh : get? entry.1 entries = none := by
      refine get?_eq_none_iff.2 fun hmem => ?_
      exact hapart entry.1 hmem entry.1 (by simp) rfl
    rw [hlast, ih hentries, insert_of_get?_eq_none hfresh]

/-- Where every key has one entry, the order of the entries does not matter to lookups. -/
theorem Table.get?_ofEntries_of_perm {κ ν : Type} [DecidableEq κ] {entries table : List (κ × ν)}
    (hperm : entries.Perm table) (h : (table.map (·.1)).Nodup) (key : κ) :
    get? key (ofEntries entries) = get? key table := by
  have hentries : (entries.map (·.1)).Nodup := (hperm.map _).nodup_iff.2 h
  rw [ofEntries_eq_self hentries]
  ext value
  rw [get?_eq_some_iff hentries, get?_eq_some_iff h, hperm.mem_iff]

/-- What is registered: fields of a class, or the body of a method. -/
inductive Registration where
  | fields (className : Text) (fields : List FieldInfo)
  | method (method : MethodId) (code : Code)

namespace Registration

def className : Registration → Text
  | .fields other _ => other
  | .method m _ => m.className

/-- The fields that are registered for a class. -/
def fieldsOf? (className : Text) : Registration → Option (List FieldInfo)
  | .fields other declared => if other = className then some declared else none
  | .method .. => none

/-- The body that is registered for a method of a class, under the method's key. -/
def bodyOf? (className : Text) : Registration → Option (Text × Code)
  | .fields .. => none
  | .method m code => if m.className = className then some (Registry.methodKey m, code) else none

/-- Something was registered for the class. -/
def Known (className : Text) (registrations : List Registration) : Prop :=
  ∃ registration ∈ registrations, registration.className = className

end Registration

namespace Registry

def register (registry : Registry) : Registration → Registry
  | .fields className fields => registry.addClass className fields
  | .method method code => registry.addMethod method code

def ofRegistrations (registrations : List Registration) : Registry := registrations.foldl register empty

variable {registry : Registry} {registration : Registration} {className : Text}

theorem ofRegistrations_concat (registrations : List Registration) (last : Registration) :
    ofRegistrations (registrations ++ [last]) = (ofRegistrations registrations).register last := List.foldl_append ..

/-- A registration tells of its own class only. -/
theorem get?_register_of_ne (h : registration.className ≠ className) :
    Table.get? className (registry.register registration).classes = Table.get? className registry.classes := by
  cases registration with
  | fields other fields => exact Table.get?_insert_of_ne (Ne.symm h) _ _
  | method method code => exact Table.get?_insert_of_ne (Ne.symm h) _ _

theorem get?_register_self (registration : Registration) :
    (Table.get? registration.className (registry.register registration).classes).isSome := by
  cases registration with
  | fields other fields => simp [register, addClass, Registration.className]
  | method method code => simp [register, addMethod, Registration.className]

/-- What a registration adds to what is known of a class. -/
theorem registered_register (registration : Registration) (className : Text) :
    (registry.register registration).registered className =
      ⟨(registry.registered className).fields ++ (registration.fieldsOf? className).getD [],
        match registration.bodyOf? className with
          | some entry => Table.insert entry.1 entry.2 (registry.registered className).methods
          | none => (registry.registered className).methods⟩ := by
  by_cases h : registration.className = className
  · subst h
    cases registration with
    | fields other fields =>
      simp [register, addClass, registered, Registration.className, Registration.fieldsOf?, Registration.bodyOf?]
    | method method code =>
      simp [register, addMethod, registered, Registration.className, Registration.fieldsOf?, Registration.bodyOf?]
  · rw [registered, get?_register_of_ne h, ← registered]
    cases registration with
    | fields other fields =>
      have hne : other ≠ className := h
      simp [Registration.fieldsOf?, Registration.bodyOf?, hne]
    | method method code =>
      have hne : method.className ≠ className := h
      simp [Registration.fieldsOf?, Registration.bodyOf?, hne]

/-- The classes of a registry are those that something was registered for. -/
theorem isSome_get?_ofRegistrations (registrations : List Registration) (className : Text) :
    (Table.get? className (ofRegistrations registrations).classes).isSome = true ↔
      Registration.Known className registrations := by
  unfold Registration.Known
  induction registrations using List.reverseRecOn with
  | nil => simp [ofRegistrations, empty]
  | append_singleton registrations last ih =>
    rw [ofRegistrations_concat]
    by_cases h : last.className = className
    · subst h
      simp [get?_register_self]
    · rw [get?_register_of_ne h, ih]
      simp [h]

/-- What a registry knows of a class are the fields and the methods that were registered for it. -/
theorem registered_ofRegistrations (registrations : List Registration) (className : Text) :
    (ofRegistrations registrations).registered className =
      ⟨(registrations.filterMap (Registration.fieldsOf? className)).flatten,
        Table.ofEntries (registrations.filterMap (Registration.bodyOf? className))⟩ := by
  induction registrations using List.reverseRecOn with
  | nil => rfl
  | append_singleton registrations last ih =>
    rw [ofRegistrations_concat, registered_register, ih]
    cases hfields : last.fieldsOf? className <;> cases hbody : last.bodyOf? className <;>
      simp [hfields, hbody, Table.ofEntries]

theorem find_of_known {registrations : List Registration} (h : Registration.Known className registrations) :
    find className (ofRegistrations registrations) = .ok ((ofRegistrations registrations).registered className) := by
  obtain ⟨known, hget⟩ := Option.isSome_iff_exists.1 ((isSome_get?_ofRegistrations registrations className).2 h)
  rw [find, registered, hget, Option.getD_some]

theorem find_of_unknown {registrations : List Registration} (h : ¬Registration.Known className registrations) :
    find className (ofRegistrations registrations) = .error (.image (.classNotFound className)) := by
  have hnone : Table.get? className (ofRegistrations registrations).classes = none := by
    rw [← Option.not_isSome_iff_eq_none, isSome_get?_ofRegistrations]
    exact h
  rw [find, hnone]

end Registry

end Bytecode
