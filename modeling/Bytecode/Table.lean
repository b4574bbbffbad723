/-!
# Tables

A table binds keys to values and keeps its entries in the order in which the keys were first bound:
binding a key again changes its value and not its place. Lookup reads the first entry of a key.
-/
namespace Bytecode

/-- Entries in the order in which their keys were first bound. -/
abbrev Table (κ ν : Type) := List (κ × ν)

namespace Table

variable {κ ν : Type} [DecidableEq κ]

def get? (key : κ) : Table κ ν → Option ν
  | [] => none
  | (k, v) :: rest => if k = key then some v else get? key rest

/-- Binds a key: in its place if it is bound already, else at the end. -/
def insert (key : κ) (value : ν) : Table κ ν → Table κ ν
  | [] => [(key, value)]
  | (k, v) :: rest => if k = key then (key, value) :: rest else (k, v) :: insert key value rest

def erase (key : κ) (table : Table κ ν) : Table κ ν := table.filter fun entry => entry.1 ≠ key

/-- Binds the entries one after another. -/
def ofEntries (entries : List (κ × ν)) : Table κ ν :=
  entries.foldl (fun table entry => insert entry.1 entry.2 table) []

@[simp] theorem get?_nil (key : κ) : get? key ([] : Table κ ν) = none := rfl

@[simp] theorem get?_insert_self (key : κ) (value : ν) (table : Table κ ν) :
    get? key (insert key value table) = some value := by
  induction table with
  | nil => simp [insert, get?]
  | cons entry rest ih => by_cases h : entry.1 = key <;> simp [insert, get?, h, ih]

theorem get?_insert_of_ne {key other : κ} (h : other ≠ key) (value : ν) (table : Table κ ν) :
    get? other (insert key value table) = get? other table := by
  induction table with
  | nil => simp [insert, get?, Ne.symm h]
  | cons entry rest ih =>
    by_cases hk : entry.1 = key
    · simp [insert, get?, hk, Ne.symm h]
    · simp [insert, get?, hk, ih]

theorem mem_of_get? {key : κ} {value : ν} (h : get? key table = some value) : (key, value) ∈ table := by
  induction table with
  | nil => cases h
  | cons entry rest ih =>
    simp only [get?] at h
    split at h
    · rename_i hkey
      cases h
      exact hkey ▸ List.mem_cons_self
    · exact List.mem_cons_of_mem _ (ih h)

theorem get?_eq_none_iff {key : κ} {table : Table κ ν} : get? key table = none ↔ key ∉ table.map (·.1) := by
  induction table with
  | nil => simp
  | cons entry rest ih =>
    by_cases hkey : entry.1 = key
    · simp [get?, hkey]
    · simp [get?, hkey, ih, Ne.symm hkey]

theorem isSome_get?_iff {key : κ} {table : Table κ ν} : (get? key table).isSome = true ↔ key ∈ table.map (·.1) := by
  rw [Option.isSome_iff_ne_none, ne_eq, get?_eq_none_iff, Decidable.not_not]

theorem insert_of_get?_eq_none {key : κ} {table : Table κ ν} (h : get? key table = none) (value : ν) :
    insert key value table = table ++ [(key, value)] := by
  induction table with
  | nil => rfl
  | cons entry rest ih =>
    simp only [get?] at h
    split at h
    · cases h
    · rename_i hkey
      simp [insert, hkey, ih h]

/-- Where every key has one entry, the entries are what lookups find. -/
theorem get?_eq_some_iff {table : Table κ ν} (h : (table.map (·.1)).Nodup) {key : κ} {value : ν} :
    get? key table = some value ↔ (key, value) ∈ table := by
  induction table with
  | nil => simp
  | cons entry rest ih =>
    rw [List.map_cons, List.nodup_cons] at h
    by_cases hkey : entry.1 = key
    · -- No later entry has the key.
      have hrest : (key, value) ∉ rest := by
        intro hmem
        exact h.1 (hkey ▸ List.mem_map.2 ⟨_, hmem, rfl⟩)
      simp only [get?, hkey, if_true, List.mem_cons, hrest, or_false]
      grind
    · have hentry : (key, value) ≠ entry := by
        rintro rfl
        exact hkey rfl
      simp [get?, hkey, ih h.2, hentry]

end Table

end Bytecode
