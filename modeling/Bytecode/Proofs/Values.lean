import Bytecode.State
/-!
# The values of a state

Values sit in five places: local slots, operand stacks, items of arrays, fields
of objects and static fields. `State.All P` says that `P` holds of the values in
all of them, and that the heap has nothing but arrays and objects.

`Value.Within size` is what holds of them in every run: they are scalars in the
range of their type, the null reference, or references to one of the first
`size` entries of the heap.
-/
namespace Bytecode

/-- A scalar as narrowing makes it, the null reference, or a key below a bound. -/
inductive Value.Within (size : Nat) : Value → Prop
  | scalar (p : Primitive) (n : Int) : Within size (.narrow p n)
  | null : Within size .null
  | reference {key : Nat} : key < size → Within size (.reference (some (.int key)))

/-- The property holds of all values of a table. -/
def Table.All {κ ν : Type} (P : ν → Prop) (table : Table κ ν) : Prop := ∀ entry ∈ table, P entry.2

/-- An array or an object, with the property for its items or fields. -/
inductive Value.MadeOf (P : Value → Prop) : Value → Prop
  | array (element : Ty) {items : List Value} : (∀ v ∈ items, P v) → MadeOf P (.array element items)
  | object (className : Text) {fields : Table Text Value} : Table.All P fields → MadeOf P (.object className fields)

/-- The property holds of all items of arrays and all fields of objects. -/
def Heap.All (P : Value → Prop) (heap : Heap) : Prop := ∀ entry ∈ heap.entries, entry.MadeOf P

structure Frame.All (P : Value → Prop) (frame : Frame) : Prop where
  locals : Table.All P frame.locals
  stack : ∀ v ∈ frame.stack, P v

structure State.All (P : Value → Prop) (state : State) : Prop where
  frames : ∀ frame ∈ state.frames, frame.All P
  heap : state.heap.All P
  statics : Table.All P state.statics

/-! ## Weaker properties -/

section Mono

variable {P Q : Value → Prop}

theorem Value.MadeOf.mono {v : Value} (h : v.MadeOf P) (hpq : ∀ v, P v → Q v) : v.MadeOf Q := by
  cases h with
  | array element hitems => exact .array element fun v hv => hpq v (hitems v hv)
  | object className hfields => exact .object className fun entry hentry => hpq _ (hfields entry hentry)

theorem Frame.All.mono {frame : Frame} (h : frame.All P) (hpq : ∀ v, P v → Q v) : frame.All Q where
  locals entry hentry := hpq _ (h.locals entry hentry)
  stack v hv := hpq v (h.stack v hv)

theorem State.All.mono {state : State} (h : state.All P) (hpq : ∀ v, P v → Q v) : state.All Q where
  frames frame hframe := (h.frames frame hframe).mono hpq
  heap entry hentry := (h.heap entry hentry).mono hpq
  statics entry hentry := hpq _ (h.statics entry hentry)

end Mono

theorem Value.Within.mono {size size' : Nat} (h : size ≤ size') {v : Value} (hv : v.Within size) : v.Within size' := by
  cases hv with
  | scalar p n => exact .scalar p n
  | null => exact .null
  | reference hkey => exact .reference (Nat.lt_of_lt_of_le hkey h)

/-! ## Tables -/

namespace Table

variable {κ ν : Type} [DecidableEq κ] {P : ν → Prop} {table : Table κ ν}

theorem All.get? (h : table.All P) {key : κ} {value : ν} (hget : Table.get? key table = some value) : P value :=
  h _ (mem_of_get? hget)

theorem All.insert (h : table.All P) (key : κ) {value : ν} (hvalue : P value) :
    (Table.insert key value table).All P := by
  induction table with
  | nil =>
    intro entry hentry
    obtain rfl := List.mem_singleton.1 hentry
    exact hvalue
  | cons head rest ih =>
    obtain ⟨hhead, hrest⟩ := List.forall_mem_cons.1 h
    simp only [Table.insert]
    split
    · exact List.forall_mem_cons.2 ⟨hvalue, hrest⟩
    · exact List.forall_mem_cons.2 ⟨hhead, ih hrest⟩

theorem all_ofEntries {entries : List (κ × ν)} (h : ∀ entry ∈ entries, P entry.2) : (ofEntries entries).All P := by
  refine List.foldlRecOn entries _ (fun entry hentry => absurd hentry List.not_mem_nil) ?_
  intro table htable entry hentry
  exact htable.insert entry.1 (h entry hentry)

end Table

/-! ## Heaps -/

namespace Heap

variable {P : Value → Prop} {heap : Heap}

theorem mem_of_get? {ref : Number} {v : Value} (h : heap.get? ref = some v) : v ∈ heap.entries := by
  cases hplace : place? ref with
  | none => rw [get?_of_place?_eq_none hplace] at h; cases h
  | some place =>
    obtain rfl := place?_eq_some_iff.1 hplace
    rw [get?_natCast] at h
    exact Array.mem_of_getElem? h

/-- What a grown heap has behind a key is the new entry or an old one. -/
theorem get?_allocate_eq_some {ref : Number} {v w : Value} :
    (heap.allocate v).get? ref = some w ↔
      (ref = .int heap.size ∧ v = w) ∨ (ref ≠ .int heap.size ∧ heap.get? ref = some w) := by
  rw [get?_allocate]
  by_cases hnew : ref = .int heap.size <;> simp [hnew]

/-- What a changed heap has behind a key is the entry that was set or an old one. -/
theorem get?_set_eq_some {key ref : Number} {v w : Value} :
    (heap.set key v).get? ref = some w ↔
      (ref = key ∧ (heap.get? key).isSome ∧ v = w) ∨ (ref ≠ key ∧ heap.get? ref = some w) := by
  rw [get?_set]
  by_cases hkey : ref = key
  · subst hkey
    cases heap.get? ref <;> simp
  · simp [hkey]

theorem All.items (h : heap.All P) {ref : Number} {element : Ty} {items : List Value}
    (hget : heap.get? ref = some (.array element items)) : ∀ v ∈ items, P v := by
  cases h _ (mem_of_get? hget) with
  | array _ hitems => exact hitems

theorem All.fields (h : heap.All P) {ref : Number} {className : Text} {fields : Table Text Value}
    (hget : heap.get? ref = some (.object className fields)) : fields.All P := by
  cases h _ (mem_of_get? hget) with
  | object _ hfields => exact hfields

theorem All.allocate (h : heap.All P) {v : Value} (hv : v.MadeOf P) : (heap.allocate v).All P := by
  intro entry hentry
  rcases Array.mem_push.1 hentry with hold | rfl
  · exact h entry hold
  · exact hv

theorem All.set (h : heap.All P) (ref : Number) {v : Value} (hv : v.MadeOf P) : (heap.set ref v).All P := by
  unfold Heap.set
  cases place? ref with
  | none => exact h
  | some place =>
    intro entry hentry
    rcases Array.mem_or_eq_of_mem_setIfInBounds hentry with hold | rfl
    · exact h entry hold
    · exact hv

end Heap

/-! ## Frames -/

namespace Frame

variable {P : Value → Prop}

theorem all_start (method : MethodId) {args : List Value} (h : ∀ v ∈ args, P v) : (Frame.start method args).All P where
  locals entry hentry := by
    obtain ⟨⟨v, slot⟩, hmem, rfl⟩ := List.mem_map.1 hentry
    exact h v (List.fst_mem_of_mem_zipIdx hmem)
  stack v hv := absurd hv List.not_mem_nil

theorem All.advance {frame : Frame} (h : frame.All P) (delta : Number) : (frame.advance delta).All P :=
  ⟨h.locals, h.stack⟩

theorem All.push {frame : Frame} (h : frame.All P) {v : Value} (hv : P v) : (frame.push v).All P :=
  ⟨h.locals, List.forall_mem_cons.2 ⟨hv, h.stack⟩⟩

end Frame

end Bytecode
