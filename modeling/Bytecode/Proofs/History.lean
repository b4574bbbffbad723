import Bytecode.Proofs.ObjectShape
/-!
# The history of a run

A `History` lists what a run has done to local slots, arrays and objects, the latest
first. It is told by the instructions, their operands and the keys that the heap gives
out (`Instruction.event?`), not by what is in the memory. What a slot, an item or a
field was last set to is found by going back in it: `slot?` passes over the calls that
have returned, `item?` and `field?` go back to where the array or the object was made.
-/
namespace Bytecode

/-- What a step does to local slots, arrays and objects. -/
inductive Event where
  /-- A method begins, with its arguments in its first slots. -/
  | enter (args : List Value)
  | leave
  /-- The innermost activation writes to a slot. -/
  | write (slot : Int) (v : Value)
  | makeArray (key : Number) (element : Ty) (items : List Value)
  /-- A value, as it was on the stack, is stored in an array. -/
  | storeItem (key : Number) (place : Nat) (v : Value)
  | makeObject (key : Number) (className : Text)
  | putField (key : Number) (name : Text) (v : Value)

/-- Events, the latest first. -/
abbrev History := List Event

/-- A value as an element of an array: a scalar is narrowed to a primitive element type. -/
def Value.as (element : Ty) (v : Value) : Value :=
  match element, v.toInt? with
  | .primitive p, some n => .narrow p n
  | _, _ => v

namespace History

/-- What a slot was last set to, in an activation with `depth` others above it: what was written to it
there, else the argument bound to it. -/
def slot? (slot : Int) : History → Nat → Option Value
  | [], _ => none
  | .leave :: past, depth => slot? slot past (depth + 1)
  | .enter _ :: past, depth + 1 => slot? slot past depth
  | .enter args :: _, 0 => if 0 ≤ slot then args[slot.toNat]? else none
  | .write other v :: past, depth => if depth = 0 ∧ other = slot then some v else slot? slot past depth
  | .makeArray .. :: past, depth | .storeItem .. :: past, depth | .makeObject .. :: past, depth
  | .putField .. :: past, depth => slot? slot past depth

/-- The element type that an array was made with. -/
def element? (key : Number) : History → Option Ty
  | [] => none
  | .makeArray other element _ :: past => if other = key then some element else element? key past
  | _ :: past => element? key past

/-- What an item of an array was last set to: the value stored there, as one of the array's element
type, else the item that the array was made with. -/
def item? (key : Number) (place : Nat) : History → Option Value
  | [] => none
  | .storeItem other place' v :: past =>
    if other = key ∧ place' = place then (element? key past).map v.as else item? key place past
  | .makeArray other _ items :: past => if other = key then items[place]? else item? key place past
  | _ :: past => item? key place past

/-- The default of a field by the declaration of its class. -/
def declared? (image : Image) (className name : Text) : Option Value :=
  match answer (Image.classInfo className image) with
  | .ok info => (info.instanceType? name).map Value.default
  | .error _ => none

/-- What a field of an object was last set to, else the default of its declared type. -/
def field? (image : Image) (key : Number) (name : Text) : History → Option Value
  | [] => none
  | .putField other name' v :: past =>
    if other = key ∧ name' = name then some v else field? image key name past
  | .makeObject other className :: past =>
    if other = key then declared? image className name else field? image key name past
  | _ :: past => field? image key name past

/-- The arrays among arguments, made one after another from a key on. -/
def ofArguments (key : Nat) : List Value → History
  | [] => []
  | .array element items :: values => ofArguments (key + 1) values ++ [.makeArray (.int key) element items]
  | _ :: values => ofArguments key values

/-- The history with which a method begins. -/
def initial (values : List Value) : History :=
  .enter (State.bindArguments .empty values).1 :: ofArguments 0 values

end History

/-- What an instruction that completes does to memory, told by its operands; `size` is the next key
of the heap. An increment is told by what the slot was last set to. -/
def Instruction.event? (operands : OperandStack) (size : Nat) (past : History) : Instruction → Option Event
  | .store _ slot => operands.head?.map (.write slot)
  | .incr slot amount => ((past.slot? slot 0).bind Value.toInt?).map fun n =>
    .write slot (.narrow .int (Number.nearestInt (n + amount)))
  | .newArray element => (operands.head?.bind Value.toInt?).map fun n =>
    .makeArray (.int size) element (List.replicate n.toNat (.default element))
  | .arrayStore _ =>
    match operands with
    | v :: index :: .reference (some key) :: _ => index.toInt?.map fun n => .storeItem key n.toNat v
    | _ => none
  | .new className => some (.makeObject (.int size) className)
  | .put false field =>
    match operands with
    | v :: .reference (some key) :: _ => some (.putField key field.name v)
    | _ => none
  | .invoke access method =>
    if access = .special ∧ method.isObjectConstructor then none
    else some (.enter (operands.take (argumentCount access method)).reverse)
  | .return _ => some .leave
  | _ => none

/-- The history of the run from a machine to another, after what was before the run. -/
inductive Recorded (first : Machine) (begun : History) : Nat → History → Machine → Prop
  | refl : Recorded first begun 0 begun first
  | step {k past machine frame callers i store move next} : Recorded first begun k past machine →
      machine.At frame callers i store → Bytecode.step machine = .next move next →
      Recorded first begun (k + 1) ((i.event? frame.stack machine.state.heap.size past).toList ++ past) next

/-- Every run has a history. -/
theorem Reaches.recorded {first last : Machine} {k : Nat} (h : Reaches first k last) (begun : History) :
    ∃ past, Recorded first begun k past last := by
  induction h with
  | refl => exact ⟨begun, .refl⟩
  | step _ hstep ih =>
    obtain ⟨past, hpast⟩ := ih
    obtain ⟨frame, callers, i, store, hat⟩ := at_of_next hstep
    exact ⟨_, hpast.step hat hstep⟩

/-! ## What an event does not concern -/

namespace History

/-- What happens while an activation is the innermost one, and in the calls that it makes and that return. -/
inductive Balanced : History → Prop
  | nil : Balanced []
  | cons {event past} : (∀ args, event ≠ .enter args) → event ≠ .leave → Balanced past → Balanced (event :: past)
  | call {during args past} : Balanced during → Balanced past → Balanced (.leave :: during ++ .enter args :: past)

/-- What is last set in a slot, an item or a field is not changed by events elsewhere. -/
structure Apart (image : Image) (past : History) : Prop where
  /-- Writes to other slots, and to arrays and objects, are not seen by a slot. -/
  slot {event slot depth} : (∀ v, event ≠ .write slot v) → (∀ args, event ≠ .enter args) → event ≠ .leave →
    slot? slot (event :: past) depth = past.slot? slot depth
  /-- Nor are other activations, whatever is written in them. -/
  call {during args slot depth} : Balanced during →
    slot? slot (.leave :: during ++ .enter args :: past) depth = past.slot? slot depth
  item {event key place} : (∀ v, event ≠ .storeItem key place v) →
    (∀ element items, event ≠ .makeArray key element items) → item? key place (event :: past) = past.item? key place
  field {event key name} : (∀ v, event ≠ .putField key name v) → (∀ className, event ≠ .makeObject key className) →
    field? image key name (event :: past) = past.field? image key name

variable {image : Image} {past : History} {event : Event}

/-- What happens above an activation does not concern its slots. -/
theorem Balanced.slot?_append {during : History} (h : Balanced during) (slot : Int) (depth : Nat) (past : History) :
    slot? slot (during ++ past) (depth + 1) = past.slot? slot (depth + 1) := by
  induction h generalizing depth past with
  | nil => rfl
  | @cons event during henter hleave _ ih =>
    cases event with
    | enter args => exact absurd rfl (henter args)
    | leave => exact absurd rfl hleave
    | write other v =>
      rw [List.cons_append, slot?, if_neg (by simp)]
      exact ih depth past
    | _ => exact ih depth past
  | @call during args before _ _ ih ih' =>
    -- A call within is entered one activation further up.
    rw [List.append_assoc, List.cons_append, slot?, ih, List.cons_append, slot?]
    exact ih' depth past

theorem apart (image : Image) (past : History) : past.Apart image where
  slot {event slot depth} hwrite henter hleave := by
    cases event with
    | enter args => exact absurd rfl (henter args)
    | leave => exact absurd rfl hleave
    | write other v =>
      have hother : other ≠ slot := by
        rintro rfl
        exact hwrite v rfl
      rw [slot?, if_neg (by simp [hother])]
    | _ => rfl
  call {during args slot depth} hduring := by
    rw [List.cons_append, slot?, hduring.slot?_append, slot?]
  item {event key place} hstore hmake := by
    cases event with
    | storeItem other place' v =>
      have hother : ¬(other = key ∧ place' = place) := by
        rintro ⟨rfl, rfl⟩
        exact hstore v rfl
      rw [item?, if_neg hother]
    | makeArray other element items =>
      have hother : other ≠ key := by
        rintro rfl
        exact hmake element items rfl
      rw [item?, if_neg hother]
    | _ => rfl
  field {event key name} hput hmake := by
    cases event with
    | putField other name' v =>
      have hother : ¬(other = key ∧ name' = name) := by
        rintro ⟨rfl, rfl⟩
        exact hput v rfl
      rw [field?, if_neg hother]
    | makeObject other className =>
      have hother : other ≠ key := by
        rintro rfl
        exact hmake className rfl
      rw [field?, if_neg hother]
    | _ => rfl

end History

end Bytecode
