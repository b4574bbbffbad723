import Bytecode.Proofs.Integrity
import Mathlib.Logic.Equiv.Defs
/-!
# Renaming the keys of the heap

A `Renaming` permutes the keys of a heap. Renaming an activation moves the entries
of its heap to their new keys and changes the keys in all references. Instructions
do not notice it (`Exec.execute_renames`): they copy keys and look entries up by
them, and a fresh key is above all keys that are renamed. The one exception is a
branch that compares a key with a number, which `Value.Clashes` rules out.
-/
namespace Bytecode

/-- A permutation of the keys below a bound. All other keys stay as they are. -/
structure Renaming (bound : Nat) where
  perm : Equiv.Perm Nat
  fixes : ∀ key, bound ≤ key → perm key = key

section Definitions

variable {bound : Nat} (p : Renaming bound)

/-- A key by its new name. What is no key has no other name. -/
def Number.rename : Number → Number
  | .int n => if 0 ≤ n then .int (p.perm n.toNat) else .int n
  | x => x

def Value.rename : Value → Value
  | .reference ref => .reference (ref.map (Number.rename p))
  | v => v

def Table.mapValues {κ ν ν' : Type} (f : ν → ν') (table : Table κ ν) : Table κ ν' :=
  table.map fun entry => (entry.1, f entry.2)

/-- An array or an object with its items or fields renamed. -/
def Value.renameParts : Value → Value
  | .array element items => .array element (items.map (Value.rename p))
  | .object className fields => .object className (Table.mapValues (Value.rename p) fields)
  | v => v

/-- The entries under their new keys, with their items and fields renamed. -/
def Heap.rename (heap : Heap) : Heap :=
  ⟨Array.ofFn fun place : Fin heap.size => ((heap.entries[p.perm.symm place]?).getD .null).renameParts p⟩

def Frame.rename (frame : Frame) : Frame :=
  { frame with locals := Table.mapValues (Value.rename p) frame.locals, stack := frame.stack.map (Value.rename p) }

def Activation.rename (act : Activation) : Activation :=
  { act with
    frame := act.frame.rename p, heap := act.heap.rename p, statics := Table.mapValues (Value.rename p) act.statics }

def Control.rename : Control → Control
  | .call callee => .call (callee.rename p)
  | .leave returned => .leave (returned.map (Value.rename p))
  | control => control

/-- A fault with the keys in its message renamed. -/
def Fault.rename : Fault → Fault
  | .malformed (.danglingReference ref) => .malformed (.danglingReference (ref.rename p))
  | .malformed (.noSuchField field ref) => .malformed (.noSuchField field (ref.rename p))
  | fault => fault

def Stop.rename : Stop → Stop
  | .fault f => .fault (f.rename p)
  | .halt outcome => .halt outcome

end Definitions

section

variable {bound : Nat} {p : Renaming bound}

/-! ## Keys and values -/

theorem Renaming.perm_lt (p : Renaming bound) {size : Nat} (hb : bound ≤ size) (key : Nat) :
    p.perm key < size ↔ key < size := by
  constructor
  · intro hlt
    refine Nat.lt_of_not_le fun hle => ?_
    rw [p.fixes key (Nat.le_trans hb hle)] at hlt
    omega
  · intro hlt
    refine Nat.lt_of_not_le fun hle => ?_
    -- A key with a name above the bound is its own name.
    have hself : p.perm key = key := p.perm.injective (p.fixes _ (Nat.le_trans hb hle))
    omega

namespace Number

@[simp] theorem rename_natCast (key : Nat) : rename p (.int key) = .int (p.perm key) := by simp [rename]

theorem rename_of_place?_eq_none {ref : Number} (h : Heap.place? ref = none) : ref.rename p = ref := by
  cases ref with
  | int n =>
    have hneg : ¬0 ≤ n := by
      intro hpos
      simp [Heap.place?, hpos] at h
    simp [rename, hneg]
  | _ => rfl

theorem place?_rename (ref : Number) : Heap.place? (ref.rename p) = (Heap.place? ref).map p.perm := by
  cases h : Heap.place? ref with
  | none => rw [rename_of_place?_eq_none h, h]; rfl
  | some place =>
    obtain rfl := Heap.place?_eq_some_iff.1 h
    rw [rename_natCast, Heap.place?_natCast]
    rfl

theorem rename_injective {x y : Number} (h : x.rename p = y.rename p) : x = y := by
  have hplaces := congrArg Heap.place? h
  rw [place?_rename, place?_rename] at hplaces
  cases hx : Heap.place? x with
  | none =>
    rw [hx] at hplaces
    have hy : Heap.place? y = none := by simpa using hplaces.symm
    rw [rename_of_place?_eq_none hx, rename_of_place?_eq_none hy] at h
    exact h
  | some place =>
    rw [hx] at hplaces
    obtain ⟨place', hy, hsame⟩ := Option.map_eq_some_iff.1 hplaces.symm
    rw [Heap.place?_eq_some_iff.1 hx, Heap.place?_eq_some_iff.1 hy, p.perm.injective hsame]

theorem rename_inj {x y : Number} : x.rename p = y.rename p ↔ x = y := ⟨rename_injective, congrArg _⟩

theorem rename_fresh {size : Nat} (hb : bound ≤ size) : rename p (.int size) = .int size := by
  rw [rename_natCast, p.fixes size hb]

end Number

namespace Value

theorem toInt?_rename (v : Value) : (v.rename p).toInt? = v.toInt? := by
  cases v <;> rfl

theorem kind_rename (v : Value) : (v.rename p).kind = v.kind := by
  cases v <;> rfl

theorem fits_rename (category : Category) (v : Value) : Exec.fits category (v.rename p) = Exec.fits category v := by
  cases category <;> cases v <;> rfl

theorem rename_narrow (type : Primitive) (n : Int) : (narrow type n).rename p = narrow type n := by
  cases type <;> rfl

/-- What has no keys has no other name. -/
theorem Within.rename_eq {v : Value} (h : v.Within 0) : v.rename p = v := by
  cases h with
  | scalar type n => exact rename_narrow type n
  | null => rfl
  | reference hlt => exact absurd hlt (Nat.not_lt_zero _)

theorem rename_default (type : Ty) : (default type).rename p = default type := (within_default 0 type).rename_eq

end Value

namespace Table

variable {κ ν ν' : Type} [DecidableEq κ]

theorem get?_mapValues (f : ν → ν') (key : κ) (table : Table κ ν) :
    get? key (mapValues f table) = (get? key table).map f := by
  induction table with
  | nil => rfl
  | cons entry rest ih =>
    change (if entry.1 = key then some (f entry.2) else get? key (mapValues f rest)) =
      (if entry.1 = key then some entry.2 else get? key rest).map f
    split
    · rfl
    · exact ih

theorem mapValues_insert (f : ν → ν') (key : κ) (v : ν) (table : Table κ ν) :
    mapValues f (insert key v table) = insert key (f v) (mapValues f table) := by
  induction table with
  | nil => rfl
  | cons entry rest ih =>
    change mapValues f (if entry.1 = key then (key, v) :: rest else entry :: insert key v rest) =
      if entry.1 = key then (key, f v) :: mapValues f rest
      else (entry.1, f entry.2) :: insert key (f v) (mapValues f rest)
    split
    · rfl
    · rw [← ih]
      rfl

omit [DecidableEq κ] in
theorem mapValues_eq_self {f : ν → ν} {table : Table κ ν} (h : table.All fun v => f v = v) :
    mapValues f table = table := by
  refine (List.map_congr_left fun entry hentry => ?_).trans (List.map_id _)
  exact Prod.ext rfl (h entry hentry)

end Table

/-! ## Heaps and frames -/

namespace Heap

variable {heap : Heap}

@[simp] theorem size_rename : (heap.rename p).size = heap.size := by
  simp [rename, size]

/-- Behind the new name of a key stands what stood behind the key. -/
theorem get?_rename (hb : bound ≤ heap.size) (ref : Number) :
    (heap.rename p).get? (ref.rename p) = (heap.get? ref).map (Value.renameParts p) := by
  cases h : place? ref with
  | none => rw [Number.rename_of_place?_eq_none h, get?_of_place?_eq_none h, get?_of_place?_eq_none h]; rfl
  | some place =>
    obtain rfl := place?_eq_some_iff.1 h
    rw [Number.rename_natCast, get?_natCast, get?_natCast]
    have hlt := p.perm_lt hb place
    by_cases hplace : place < heap.size
    · have hentry : heap.entries[place]? = some heap.entries[place] := Array.getElem?_eq_getElem hplace
      simp [rename, hlt.2 hplace, hentry]
    · have hentry : heap.entries[place]? = none := Array.getElem?_eq_none (Nat.le_of_not_lt hplace)
      have hnone : (heap.rename p).entries[p.perm place]? = none := by
        refine Array.getElem?_eq_none ?_
        rw [← size, size_rename]
        omega
      rw [hentry, hnone]
      rfl

/-- The renamed heap is the one that answers so. -/
theorem rename_eq {heap' : Heap} (hb : bound ≤ heap.size)
    (h : ∀ ref, heap'.get? (ref.rename p) = (heap.get? ref).map (Value.renameParts p)) : heap.rename p = heap' := by
  have hentries : (heap.rename p).entries = heap'.entries := by
    refine Array.ext_getElem? fun place => ?_
    -- Every place is the new name of some key.
    have hname : Number.rename p (.int (p.perm.symm place)) = .int place := by simp
    rw [← get?_natCast, ← get?_natCast, ← hname, get?_rename hb, h]
  cases heap'
  exact congrArg Heap.mk hentries

theorem rename_allocate (hb : bound ≤ heap.size) (v : Value) :
    (heap.allocate v).rename p = (heap.rename p).allocate (v.renameParts p) := by
  refine rename_eq (Nat.le_trans hb (by simp)) fun ref => ?_
  rw [get?_allocate, get?_allocate, size_rename, get?_rename hb]
  have hkey : ref.rename p = .int heap.size ↔ ref = .int heap.size := by
    have hfresh := Number.rename_inj (p := p) (x := ref) (y := .int heap.size)
    rwa [Number.rename_fresh hb] at hfresh
  simp only [hkey]
  split <;> rfl

theorem rename_set (hb : bound ≤ heap.size) (ref : Number) (v : Value) :
    (heap.set ref v).rename p = (heap.rename p).set (ref.rename p) (v.renameParts p) := by
  refine rename_eq (by simpa using hb) fun other => ?_
  simp only [get?_set, get?_rename hb, Number.rename_inj, Option.isSome_map]
  split <;> rfl

end Heap

theorem Frame.rename_start (method : MethodId) (args : List Value) :
    (start method args).rename p = start method (args.map (Value.rename p)) := by
  simp [rename, start, Table.mapValues, List.zipIdx_map, Function.comp_def]

end

end Bytecode
