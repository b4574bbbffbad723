import Bytecode.Proofs.Arguments
import Bytecode.Proofs.Failure
import Bytecode.Proofs.Reach
/-!
# The shape of the heap

An array keeps its element type and its length, and all its items are of the kind
of that type; an object keeps its class; and the heap grows by one entry with
every array or object made and never else. `HeapStep` sums up what an instruction
can do to the heap, and all of this is a case analysis over its three forms.
-/
namespace Bytecode

/-- The kind of a type's values: a scalar type has its own, arrays and objects are known by references. -/
def Ty.kind : Ty → Text
  | .primitive p => p.name
  | _ => "reference"

/-- An object, or an array with all items of the kind of its element type. -/
inductive Value.Typed : Value → Prop
  | array {element : Ty} {items : List Value} : (∀ v ∈ items, v.kind = element.kind) → Typed (.array element items)
  | object (className : Text) (fields : Table Text Value) : Typed (.object className fields)

/-- The first value may take the second one's place: an array for one of the same element type and
length, an object for one of the same class. -/
inductive Value.Replaces : Value → Value → Prop
  | array (element : Ty) {items items' : List Value} : items.length = items'.length →
      Replaces (.array element items) (.array element items')
  | object (className : Text) (fields fields' : Table Text Value) :
      Replaces (.object className fields) (.object className fields')

/-- All entries are objects and well typed arrays. -/
def Heap.Typed (heap : Heap) : Prop := ∀ ref entry, heap.get? ref = some entry → entry.Typed

/-- The instructions that make arrays and objects. -/
def Instruction.allocates : Instruction → Bool
  | .new _ | .newArray _ => true
  | _ => false

namespace Value

theorem kind_narrow (p : Primitive) (n : Int) : (narrow p n).kind = p.name := by
  cases p <;> rfl

theorem kind_default (type : Ty) : (default type).kind = type.kind := by
  cases type with
  | primitive p => exact kind_narrow p 0
  | _ => rfl

theorem Typed.replaces_self {v : Value} (h : v.Typed) : v.Replaces v := by
  cases h with
  | array => exact .array _ rfl
  | object className fields => exact .object className fields fields

end Value

theorem Ty.kind_of_isReference {type : Ty} (h : type.isReference) : type.kind = "reference" := by
  cases type with
  | primitive p => cases h
  | _ => rfl

theorem Coerces.kind_eq {element : Ty} {v w : Value} (h : Coerces element v w) : w.kind = element.kind := by
  cases h with
  | scalar => exact Value.kind_narrow _ _
  | reference _ href => exact (Ty.kind_of_isReference href).symm

/-! ## One instruction -/

/-- What an instruction that completes does to the heap: nothing, or it puts something else in an
entry's place, or it makes a new entry and pushes the key of it. -/
inductive HeapStep (act act' : Activation) : Bool → Control → Prop
  | keeps {control} : act'.heap = act.heap → HeapStep act act' false control
  | replaces {control ref old new} : act.heap.get? ref = some old → new.Replaces old → (old.Typed → new.Typed) →
      act'.heap = act.heap.set ref new → HeapStep act act' false control
  | allocates {entry rest} : entry.Typed → act'.heap = act.heap.allocate entry →
      act'.frame.stack = .reference (some (.int act.heap.size)) :: rest → HeapStep act act' true .next

theorem Effect.heapStep {act act' : Activation} {i : Instruction} {control : Control} (h : Effect act i control act') :
    HeapStep act act' i.allocates control := by
  cases h with
  | new hne hinfo => exact .allocates (.object _ _) rfl rfl
  | newArray hstack hn hpos =>
    refine .allocates (.array fun v hv => ?_) rfl rfl
    rw [List.eq_of_mem_replicate hv]
    exact Value.kind_default _
  | putField hstack hentry => exact .replaces hentry (.object _ _ _) (fun _ => .object _ _) rfl
  | arrayStore hstack hn hentry hpos hlt hcoerces =>
    refine .replaces hentry (.array _ (by simp)) (fun hold => ?_) rfl
    cases hold with
    | array hitems =>
      refine .array fun v hv => ?_
      -- The value that is stored has been made one of the element type.
      rcases List.mem_or_eq_of_mem_set hv with hv | rfl
      · exact hitems v hv
      · exact hcoerces.kind_eq
  | _ => exact .keeps rfl

namespace HeapStep

variable {act act' : Activation} {grows : Bool} {control : Control}

theorem size_eq (h : HeapStep act act' grows control) :
    act'.heap.size = act.heap.size + if grows then 1 else 0 := by
  cases h with
  | keeps hheap => rw [hheap]; rfl
  | replaces _ _ _ hheap => rw [hheap, Heap.size_set]; rfl
  | allocates _ hheap _ => rw [hheap, Heap.size_allocate]; rfl

theorem typed (h : HeapStep act act' grows control) (hheap : act.heap.Typed) : act'.heap.Typed := by
  intro ref entry hentry
  cases h with
  | keeps hsame => exact hheap ref entry (hsame ▸ hentry)
  | @replaces _ key old new hold _ htyped hset =>
    rw [hset, Heap.get?_set_eq_some] at hentry
    rcases hentry with ⟨-, -, rfl⟩ | ⟨-, hentry⟩
    · exact htyped (hheap key old hold)
    · exact hheap ref entry hentry
  | allocates htyped hallocate _ =>
    rw [hallocate, Heap.get?_allocate_eq_some] at hentry
    rcases hentry with ⟨-, rfl⟩ | ⟨-, hentry⟩
    · exact htyped
    · exact hheap ref entry hentry

/-- Every entry is kept, or another one of its shape stands in its place. -/
theorem kept (h : HeapStep act act' grows control) (hheap : act.heap.Typed) {ref : Number} {entry : Value}
    (hentry : act.heap.get? ref = some entry) : ∃ entry', act'.heap.get? ref = some entry' ∧ entry'.Replaces entry := by
  have hself := (hheap ref entry hentry).replaces_self
  cases h with
  | keeps hsame => exact ⟨entry, hsame ▸ hentry, hself⟩
  | @replaces _ key old new hold hreplaces _ hset =>
    rw [hset, Heap.get?_set]
    by_cases hkey : ref = key
    · subst hkey
      obtain rfl : old = entry := Option.some.inj (hold.symm.trans hentry)
      exact ⟨new, by simp [hentry], hreplaces⟩
    · exact ⟨entry, by simp [hkey, hentry], hself⟩
  | allocates _ hallocate _ =>
    rw [hallocate, Heap.get?_allocate]
    split
    · -- The new key is the first one behind which there was nothing.
      rename_i hkey
      obtain ⟨n, hlt, hn⟩ := Heap.get?_isSome_iff.1 (Option.isSome_iff_exists.2 ⟨entry, hentry⟩)
      rw [hkey, Number.int.injEq, Int.natCast_inj] at hn
      exact absurd hn (Nat.ne_of_gt hlt)
    · exact ⟨entry, hentry, hself⟩

end HeapStep

/-! ## One step -/

/-- A step that does not go on leaves the heap alone. -/
theorem heap_of_stopped {machine : Machine} (h : ∀ move next, step machine ≠ .next move next) :
    (step machine).machine.state.heap = machine.state.heap := by
  cases hstep : step machine with
  | next move next => exact absurd hstep (h move next)
  | halt outcome returned left =>
    rcases halted_cases hstep with ⟨-, _, -, hemptied⟩ | ⟨-, -, -, hpopped⟩
    · change left.state.heap = _
      rw [hemptied]
    · exact hpopped.heap_eq
  | fault fault left => exact (faulted_onlyPopped hstep).heap_eq

/-- What an instruction does to the heap, a step does that goes on. -/
theorem heapStep_of_next {machine next : Machine} {move : Move} (h : step machine = .next move next) :
    ∃ frame callers i store control act, machine.At frame callers i store ∧
      HeapStep ⟨frame, machine.state.heap, machine.state.statics, store⟩ act i.allocates control ∧
      next = act.machine (control.frames act callers) := by
  obtain ⟨frame, callers, i, store, hat⟩ := at_of_next h
  obtain ⟨control, act, heffect, hnext⟩ := hat.effect h
  exact ⟨frame, callers, i, store, control, act, hat, heffect.heapStep, hnext⟩

theorem Heap.Typed.step {machine next : Machine} {move : Move} (h : machine.state.heap.Typed)
    (hstep : Bytecode.step machine = .next move next) : next.state.heap.Typed := by
  obtain ⟨_, _, _, _, _, _, -, hheap, rfl⟩ := heapStep_of_next hstep
  exact hheap.typed h

/-- However a step ends, no entry is lost and every entry keeps its shape. -/
theorem Heap.Typed.kept_by_step {machine : Machine} (h : machine.state.heap.Typed) {ref : Number} {entry : Value}
    (hentry : machine.state.heap.get? ref = some entry) :
    ∃ entry', (Bytecode.step machine).machine.state.heap.get? ref = some entry' ∧ entry'.Replaces entry := by
  by_cases hnext : ∃ move next, Bytecode.step machine = .next move next
  · obtain ⟨move, next, hstep⟩ := hnext
    rw [hstep]
    obtain ⟨_, _, _, _, _, _, -, hheap, rfl⟩ := heapStep_of_next hstep
    exact hheap.kept h hentry
  · have hstopped : ∀ move next, Bytecode.step machine ≠ .next move next := by simpa using hnext
    rw [heap_of_stopped hstopped]
    exact ⟨entry, hentry, (h ref entry hentry).replaces_self⟩

/-- An array or object that is made takes the next key, which is pushed. -/
theorem step_allocates {machine next : Machine} {frame : Frame} {callers : List Frame} {i : Instruction}
    {store : Store} {move : Move} (hat : machine.At frame callers i store) (hi : i.allocates)
    (hstep : step machine = .next move next) :
    next.state.heap.size = machine.state.heap.size + 1 ∧ ∃ frame' rest, next.state.frames = frame' :: callers ∧
      frame'.stack = .reference (some (.int machine.state.heap.size)) :: rest := by
  obtain ⟨control, act, heffect, rfl⟩ := hat.effect hstep
  have hheap := heffect.heapStep
  rw [hi] at hheap
  refine ⟨hheap.size_eq, ?_⟩
  cases hheap with
  | allocates _ _ hstack => exact ⟨_, _, rfl, hstack⟩

/-- A step that makes no array and no object leaves the heap at its size. -/
theorem size_of_step {machine : Machine}
    (h : ∀ frame callers i store, machine.At frame callers i store → i.allocates →
      ∀ move next, step machine ≠ .next move next) :
    (step machine).machine.state.heap.size = machine.state.heap.size := by
  by_cases hnext : ∃ move next, step machine = .next move next
  · obtain ⟨move, next, hstep⟩ := hnext
    obtain ⟨frame, callers, i, store, _, _, hat, hheap, rfl⟩ := heapStep_of_next hstep
    have hi : i.allocates = false := by
      cases hi : i.allocates with
      | false => rfl
      | true => exact absurd hstep (h frame callers i store hat hi _ _)
    rw [hi] at hheap
    rw [hstep]
    exact hheap.size_eq
  · rw [heap_of_stopped (by simpa using hnext)]

/-! ## Runs -/

/-- The arrays among some values. -/
def Value.isArray : Value → Bool
  | .array .. => true
  | _ => false

namespace State

/-- Binding arguments puts the arrays among them on the heap, in their order. -/
theorem entries_bindArguments (heap : Heap) (values : List Value) :
    (bindArguments heap values).2.entries.toList = heap.entries.toList ++ values.filter Value.isArray := by
  induction values generalizing heap with
  | nil => exact (List.append_nil _).symm
  | cons v values ih =>
    simp only [bindArguments]
    rw [ih]
    cases v with
    | array element items => simp [bindArgument, Heap.allocate, List.filter_cons, Value.isArray]
    | _ => rfl

theorem entries_initial (method : MethodId) (values : List Value) :
    (initial method values).heap.entries.toList = values.filter Value.isArray :=
  (entries_bindArguments .empty values).trans (List.nil_append _)

/-- A text lists no arrays but well typed ones. -/
theorem typed_initial (method : MethodId) {text : Text} {values : List Value}
    (hparse : Arguments.parse text = .ok values) : (initial method values).heap.Typed := by
  have hvalues : ∀ v ∈ values, v.isArray → v.Typed := by
    refine Arguments.parse_all (P := fun v => v.isArray → v.Typed) ?_ ?_ hparse
    · rintro _ ⟨p, n, rfl⟩ harray
      cases p <;> cases harray
    · intro type items hitems _
      exact .array fun v hv => (hitems v hv).2
  intro ref entry hentry
  have hmem : entry ∈ (initial method values).heap.entries.toList := Array.mem_toList_iff.2 (Heap.mem_of_get? hentry)
  rw [entries_initial] at hmem
  obtain ⟨hmem, harray⟩ := List.mem_filter.1 hmem
  exact hvalues entry hmem harray

end State

theorem Heap.Typed.reaches {first last : Machine} {k : Nat} (h : first.state.heap.Typed)
    (hreaches : Reaches first k last) : last.state.heap.Typed :=
  hreaches.keeps (I := fun machine => machine.state.heap.Typed) (fun _ _ _ hstep hheap => hheap.step hstep) h

/-- In every state of a run whose arguments a text lists, the keys of the heap are the
numbers below its size and all entries are objects and well typed arrays. The step
from there, however it ends, loses no entry and keeps the shape of each; a `new`
or `newarray` that goes on adds one entry and pushes its key, the old size, and no
other step changes the size. -/
theorem heap_keeps_shape {image : Image} {method : MethodId} {text : Text} {values : List Value}
    (hparse : Arguments.parse text = .ok values) {k : Nat} {machine : Machine}
    (hreaches : Reaches ⟨State.initial method values, .ofImage image⟩ k machine) :
    let heap := machine.state.heap
    let after := (step machine).machine.state.heap
    (∀ ref, (heap.get? ref).isSome ↔ ∃ n < heap.size, ref = .int (n : Nat)) ∧
    (∀ ref entry, heap.get? ref = some entry → entry.Typed) ∧
    (∀ ref entry, heap.get? ref = some entry → ∃ entry', after.get? ref = some entry' ∧ entry'.Replaces entry) ∧
    (∀ frame callers i store, machine.At frame callers i store → i.allocates →
      ∀ move next, step machine = .next move next → next.state.heap.size = heap.size + 1 ∧
        ∃ frame' rest, next.state.frames = frame' :: callers ∧
          frame'.stack = .reference (some (.int heap.size)) :: rest) ∧
    ((∀ frame callers i store, machine.At frame callers i store → i.allocates →
      ∀ move next, step machine ≠ .next move next) → after.size = heap.size) := by
  have htyped := (State.typed_initial method hparse).reaches hreaches
  exact ⟨fun ref => Heap.get?_isSome_iff, htyped, fun ref entry hentry => htyped.kept_by_step hentry,
    fun frame callers i store hat hi move next hstep => step_allocates hat hi hstep, size_of_step⟩

namespace Sample

def fill : MethodId := ⟨"Sample", "fill", [], none⟩

/-- Makes an array of two bytes and stores an integer in it that is no byte. -/
def fillCode : Code := #[.push (.int 2), .newArray (.primitive .byte), .push (.int 0), .push (.int 300),
  .arrayStore (.primitive .int), .return none]

def fillImage : Image := .registry (Registry.empty.addMethod fill fillCode)

/-- In the method at an offset, with some entries on the heap. -/
def filling (entries : List Value) (offset : Int) (stack : OperandStack) : Machine :=
  ⟨⟨⟨entries.toArray⟩, [⟨⟨fill, .int offset⟩, [], stack⟩], []⟩, ⟨fillImage, [(fill.text, fillCode)], []⟩⟩

end Sample

open Sample in
/-- Just before the store there is an array of two bytes, and there is one after it. -/
theorem bytes_stay_bytes : ∃ machine, Reaches ⟨State.initial fill [], .ofImage fillImage⟩ 4 machine ∧
    machine.state.heap.get? (.int 0) = some (.array (.primitive .byte) [.byte 0, .byte 0]) ∧
    ∃ entry, (step machine).machine.state.heap.get? (.int 0) = some entry ∧
      entry.Replaces (.array (.primitive .byte) [.byte 0, .byte 0]) := by
  let bytes : Value := .array (.primitive .byte) [.byte 0, .byte 0]
  let key : Value := .reference (some (.int 0))
  have hlength : step ⟨State.initial fill [], .ofImage fillImage⟩ = .next .stay (filling [] 1 [.int 2]) := rfl
  have hmake : step (filling [] 1 [.int 2]) = .next .stay (filling [bytes] 2 [key]) := rfl
  have hindex : step (filling [bytes] 2 [key]) = .next .stay (filling [bytes] 3 [.int 0, key]) := rfl
  have hvalue : step (filling [bytes] 3 [.int 0, key]) = .next .stay (filling [bytes] 4 [.int 300, .int 0, key]) := rfl
  have hreaches := (((Reaches.refl.step hlength).step hmake).step hindex).step hvalue
  have hparse : Arguments.parse "()" = .ok [] := rfl
  obtain ⟨-, -, hkept, -, -⟩ := heap_keeps_shape hparse hreaches
  exact ⟨_, hreaches, rfl, hkept (.int 0) bytes rfl⟩

end Bytecode
