import Bytecode.State
import Bytecode.Store
/-!
# Activations

What one instruction works on: the innermost frame, the heap, the static fields and the store, but
not the callers. An instruction is an `Exec`: it reads and changes the activation and ends in a
`Control`, or it stops with an outcome or a fault and leaves the activation as it is at that point.
-/
namespace Bytecode

/-- How a run of the program itself ends. -/
inductive Outcome where
  | ok
  | divideByZero
  | assertionError
  | outOfBounds
  | nullPointer
deriving Repr, DecidableEq

def Outcome.text : Outcome → Text
  | ok => "ok"
  | divideByZero => "divide by zero"
  | assertionError => "assertion error"
  | outOfBounds => "out of bounds"
  | nullPointer => "null pointer"

/-- What one instruction can see and change. -/
structure Activation where
  frame : Frame
  heap : Heap
  statics : Table Text Value
  store : Store

/-- Why an instruction does not complete: the program ends, or the machine cannot go on. -/
inductive Stop where
  | halt (outcome : Outcome)
  | fault (fault : Fault)

/-- Where control goes after an instruction. -/
inductive Control where
  | next
  | jump (target : Int)
  | call (callee : Frame)
  | leave (returned : Option Value)

abbrev Exec := EStateM Stop Activation

namespace Exec

def raise {α : Type} (fault : Fault) : Exec α := throw (.fault fault)

def halt {α : Type} (outcome : Outcome) : Exec α := throw (.halt outcome)

def orRaise {α : Type} : Except Fault α → Exec α
  | .ok a => pure a
  | .error fault => raise fault

def orHalt {α : Type} (outcome : Outcome) : Option α → Exec α
  | some a => pure a
  | none => halt outcome

/-- Looks something up in the store. -/
def onStore {α : Type} (action : EStateM Fault Store α) : Exec α := fun act =>
  match action act.store with
  | .ok a store => .ok a { act with store }
  | .error fault store => .error (.fault fault) { act with store }

/-- The text of the program counter, for messages. -/
def site : Exec Text := return (← get).frame.pc.text

/-! ## Operands -/

def push (v : Value) : Exec Unit :=
  modify fun act => { act with frame := act.frame.push v }

def pop : Exec Value := do
  let act ← get
  let (v, rest) ← orRaise (OperandStack.pop act.frame.stack)
  set { act with frame := { act.frame with stack := rest } }
  return v

/-- The number behind a scalar. -/
def expectInt (v : Value) : Exec Int := do
  match v.toInt? with
  | some n => return n
  | none => raise (.mistyped "int" v.kind (← site))

/-- The key behind a reference, `none` for the null reference. -/
def expectReference (v : Value) : Exec (Option Number) := do
  match v with
  | .reference ref => return ref
  | v => raise (.mistyped "reference" v.kind (← site))

def popInt : Exec Int := do expectInt (← pop)

def popReference : Exec (Option Number) := do expectReference (← pop)

/-- Pops a reference that may not be null. -/
def popKey : Exec Number := do orHalt .nullPointer (← popReference)

/-- Whether a value is of a declared category. -/
def fits : Category → Value → Bool
  | .int, v => v.toInt?.isSome
  | .ref, .reference _ => true
  | .ref, _ => false

def expectCategory (category : Category) (v : Value) : Exec Value := do
  if fits category v then return v else raise (.mistyped category.name v.kind (← site))

/-- Pops a number of operands, the last one pushed being the last of the list. -/
def popArguments : Nat → List Value → Exec (List Value)
  | 0, args => return args
  | count + 1, args => do
    let v ← pop
    popArguments count (v :: args)

/-- Puts an array or an object on the heap and pushes the reference to it. -/
def allocate (v : Value) : Exec Unit := do
  let ref := (← get).heap.size
  modify fun act => { act with heap := act.heap.allocate v }
  push (.reference (some (.int ref)))

end Exec

end Bytecode
