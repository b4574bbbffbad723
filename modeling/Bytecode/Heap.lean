import Bytecode.Fault
import Bytecode.Value
/-!
# The heap

Arrays and objects live on the heap. It gives out the keys 0, 1, 2, … in this order and keeps every
entry; the value behind a key can be replaced.
-/
namespace Bytecode

/-- Arrays and objects by their keys: the entry of key `n` stands at place `n`. -/
structure Heap where
  entries : Array Value
deriving Repr

namespace Heap

def empty : Heap := ⟨#[]⟩

def size (heap : Heap) : Nat := heap.entries.size

/-- The heap with a new entry, whose key is the old size. -/
def allocate (v : Value) (heap : Heap) : Heap := ⟨heap.entries.push v⟩

/-- The place of the entry behind a key: keys are natural numbers. -/
def place? : Number → Option Nat
  | .int n => if 0 ≤ n then some n.toNat else none
  | _ => none

def get? (ref : Number) (heap : Heap) : Option Value :=
  (place? ref).bind fun place => heap.entries[place]?

def get (ref : Number) (heap : Heap) : Except Fault Value :=
  match heap.get? ref with
  | some v => .ok v
  | none => .error (.malformed (.danglingReference ref))

/-- The element type and the items of an array. -/
def getArray (ref : Number) (site : Text) (heap : Heap) : Except Fault (Ty × List Value) := do
  match ← heap.get ref with
  | .array element items => .ok (element, items)
  | v => .error (.mistyped "array" v.kind site)

/-- The class name and the fields of an object. -/
def getObject (ref : Number) (site : Text) (heap : Heap) : Except Fault (Text × Table Text Value) := do
  match ← heap.get ref with
  | .object className fields => .ok (className, fields)
  | v => .error (.mistyped "object" v.kind site)

/-- The heap with another value behind a key; a key that is not there changes nothing. -/
def set (ref : Number) (v : Value) (heap : Heap) : Heap :=
  match place? ref with
  | some place => ⟨heap.entries.setIfInBounds place v⟩
  | none => heap

/-- Puts another value behind a key that is there. -/
def replace (ref : Number) (v : Value) (heap : Heap) : Except Fault Heap := do
  let _ ← heap.get ref
  .ok (heap.set ref v)

/-- Sets a field of an object. -/
def setField (ref : Number) (site name : Text) (v : Value) (heap : Heap) : Except Fault Heap := do
  let (className, fields) ← heap.getObject ref site
  .ok (heap.set ref (.object className (Table.insert name v fields)))

def entryText (entry : Value × Nat) : Text :=
  Text.ofString "@" ++ Text.ofNat entry.2 ++ "=" ++ entry.1.text

def text (heap : Heap) : Text := Text.join ", " (heap.entries.toList.zipIdx.map entryText)

@[simp] theorem place?_natCast (n : Nat) : place? (.int n) = some n := by simp [place?]

theorem place?_eq_some_iff {ref : Number} {n : Nat} : place? ref = some n ↔ ref = .int n := by
  cases ref with
  | int m => simp only [place?]; grind
  | _ => simp [place?]

@[simp] theorem size_allocate (v : Value) (heap : Heap) :
    (heap.allocate v).size = heap.size + 1 := by
  simp [allocate, size]

@[simp] theorem size_set (ref : Number) (v : Value) (heap : Heap) :
    (heap.set ref v).size = heap.size := by
  simp only [set, size]
  split <;> simp

@[simp] theorem get?_natCast (n : Nat) (heap : Heap) : heap.get? (.int n) = heap.entries[n]? := by
  simp [get?]

theorem get?_of_place?_eq_none {ref : Number} (h : place? ref = none) (heap : Heap) :
    heap.get? ref = none := by
  simp [get?, h]

/-- The keys that are there are the natural numbers below the size. -/
theorem get?_isSome_iff {ref : Number} {heap : Heap} :
    (heap.get? ref).isSome ↔ ∃ n < heap.size, ref = .int (n : Nat) := by
  cases h : place? ref with
  | none =>
    rw [get?_of_place?_eq_none h]
    simp only [Option.isSome_none, Bool.false_eq_true, false_iff]
    rintro ⟨n, _, rfl⟩
    simp at h
  | some place =>
    obtain rfl := place?_eq_some_iff.1 h
    simp only [get?_natCast, isSome_getElem?, size, Number.int.injEq]
    grind

/-- The new entry stands behind the old size, and every other key keeps its entry. -/
theorem get?_allocate (ref : Number) (v : Value) (heap : Heap) :
    (heap.allocate v).get? ref = if ref = .int heap.size then some v else heap.get? ref := by
  cases h : place? ref with
  | none =>
    have : ref ≠ .int heap.size := by rintro rfl; simp at h
    simp [get?_of_place?_eq_none h, this]
  | some place =>
    obtain rfl := place?_eq_some_iff.1 h
    simp only [get?_natCast, allocate, size, Array.getElem?_push, Number.int.injEq, Int.natCast_inj]

/-- A key that is there has the value that was set, and every other key keeps its entry. -/
theorem get?_set (ref other : Number) (v : Value) (heap : Heap) :
    (heap.set ref v).get? other =
      if other = ref ∧ (heap.get? ref).isSome then some v else heap.get? other := by
  cases h : place? ref with
  | none => simp [set, h, get?_of_place?_eq_none h]
  | some place =>
    obtain rfl := place?_eq_some_iff.1 h
    cases ho : place? other with
    | none =>
      have : other ≠ .int place := by rintro rfl; simp at ho
      simp [get?_of_place?_eq_none ho, this]
    | some n =>
      obtain rfl := place?_eq_some_iff.1 ho
      simp only [set, h, get?_natCast, Number.int.injEq, Array.getElem?_setIfInBounds, Int.natCast_inj]
      grind

end Heap

end Bytecode
