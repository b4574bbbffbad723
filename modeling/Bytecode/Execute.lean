import Bytecode.Activation
import Bytecode.Arithmetic
/-!
# Executing instructions

`execute` carries out one instruction. What becomes of the program counter and the call stack is its
result and not its doing. An instruction that stops the run leaves locals, heap and static fields as
they were; only the operands it took are gone from the stack.
-/
namespace Bytecode

namespace Exec

/-! ## Branches -/

/-- What a branch compares: the number behind a scalar or the key behind a reference. References have
no order. -/
def comparand (condition : Condition) (v : Value) : Exec (Option Number) := do
  match v with
  | .reference ref =>
    if condition.isOrdering then raise (.mistyped "int" "reference" (← site)) else return ref
  | v => return some (.int (← expectInt v))

def decideJump (condition : Condition) (left right : Option Number) (target : Int) : Exec Control := do
  if ← orRaise (condition.compare left right (← site)) then return .jump target else return .next

/-- Compares the two topmost operands, the one pushed earlier being the left one. -/
def branch (condition : Condition) (target : Int) : Exec Control := do
  let right ← comparand condition (← pop)
  let left ← comparand condition (← pop)
  decideJump condition left right target

/-- Compares the topmost operand with the null reference if it is a reference, else with zero. -/
def branchZero (condition : Condition) (target : Int) : Exec Control := do
  let v ← pop
  let left ← comparand condition v
  let right := match v with
    | .reference _ => none
    | _ => some (.int 0)
  decideJump condition left right target

/-! ## Arrays -/

/-- The value as an element of an array: scalars are narrowed to a primitive element type. -/
def coerce (element : Ty) (v : Value) : Exec Value := do
  match element, v with
  | .primitive p, v => return .narrow p (← expectInt v)
  | _, .reference ref => return .reference ref
  | element, v => raise (.mistyped element.text v.kind (← site))

def newArray (element : Ty) : Exec Control := do
  let length ← popInt
  if length < 0 then halt .outOfBounds
  else do
    allocate (.array element (List.replicate length.toNat (.default element)))
    return .next

/-- The array behind a reference. -/
def arrayOf (ref : Number) : Exec (Ty × List Value) := do
  orRaise ((← get).heap.getArray ref (← site))

/-- An index as a place among the items of an array. -/
def placeIn (items : List Value) (index : Int) : Exec Nat :=
  if 0 ≤ index && index < items.length then return index.toNat else halt .outOfBounds

def arrayLoad : Exec Control := do
  let index ← popInt
  let ref ← popKey
  let (_, items) ← arrayOf ref
  push (← orHalt .outOfBounds items[← placeIn items index]?)
  return .next

def arrayStore : Exec Control := do
  let v ← pop
  let index ← popInt
  let ref ← popKey
  let (element, items) ← arrayOf ref
  let place ← placeIn items index
  let v ← coerce element v
  modify fun act => { act with heap := act.heap.set ref (.array element (items.set place v)) }
  return .next

def arrayLength : Exec Control := do
  let (_, items) ← arrayOf (← popKey)
  push (.narrow .int items.length)
  return .next

/-! ## Objects and fields -/

def assertionErrorClass : Text := "java/lang/AssertionError"

/-- The fields of a fresh object: its class's own instance fields, each with its type's default. -/
def freshFields (info : ClassInfo) : Table Text Value :=
  Table.ofEntries ((info.fields.filter (!·.isStatic)).map fun f => (f.name, .default f.type))

/-- Making an assertion error is what a failed assertion does. -/
def newObject (className : Text) : Exec Control := do
  if className = assertionErrorClass then halt .assertionError
  else do
    let info ← onStore (Store.classInfo className)
    allocate (.object className (freshFields info))
    return .next

/-- The value last written to a static field, else its initial value. -/
def staticOf (field : FieldRef) : Exec Value := do
  match Table.get? field.text (← get).statics with
  | some v => return v
  | none => onStore (Store.staticValue field)

def getStatic (field : FieldRef) : Exec Control := do
  push (← staticOf field)
  return .next

/-- The class name and the fields of the object behind a reference. -/
def objectOf (ref : Number) : Exec (Text × Table Text Value) := do
  orRaise ((← get).heap.getObject ref (← site))

/-- The value of a field among those of an object. -/
def fieldOf (field : FieldRef) (ref : Number) (fields : Table Text Value) : Except Fault Value :=
  match Table.get? field.name fields with
  | some v => .ok v
  | none => .error (.malformed (.noSuchField field ref))

def getField (field : FieldRef) : Exec Control := do
  let ref ← popKey
  let (_, fields) ← objectOf ref
  push (← orRaise (fieldOf field ref fields))
  return .next

def putStatic (field : FieldRef) : Exec Control := do
  let v ← pop
  modify fun act => { act with statics := Table.insert field.text v act.statics }
  return .next

def putField (field : FieldRef) : Exec Control := do
  let v ← pop
  let ref ← popKey
  let (className, fields) ← objectOf ref
  modify fun act =>
    { act with heap := act.heap.set ref (.object className (Table.insert field.name v fields)) }
  return .next

/-! ## Calls -/

/-- Takes the arguments of a static method. -/
def callStatic (method : MethodId) : Exec Control := do
  return .call (.start method (← popArguments method.params.length []))

/-- Takes the receiver and the arguments; the receiver may not be null. -/
def callOn (method : MethodId) : Exec Control := do
  let args ← popArguments (method.params.length + 1) []
  let _ ← orHalt .nullPointer (← expectReference (args.headD .null))
  return .call (.start method args)

/-- The root constructor only takes its receiver. -/
def skipConstructor : Exec Control := do
  let _ ← popReference
  return .next

def invoke (access : Access) (method : MethodId) : Exec Control :=
  if access = .special && method.isObjectConstructor then skipConstructor
  else if access = .static then callStatic method
  else callOn method

def leave : Option Category → Exec Control
  | none => return .leave none
  | some category => do return .leave (some (← expectCategory category (← pop)))

/-! ## Scalars -/

def binary (operator : Operator) : Exec Control := do
  let right ← popInt
  let left ← popInt
  push (.narrow .int (← orHalt .divideByZero (operator.apply left right)))
  return .next

def incr (slot amount : Int) : Exec Control := do
  let n ← expectInt (← orRaise ((← get).frame.load (.int slot)))
  modify fun act =>
    { act with frame := act.frame.store (.int slot) (.narrow .int (Number.nearestInt (n + amount))) }
  return .next

/-- A boolean is no integer to a cast. -/
def cast (target : CastTarget) : Exec Control := do
  let v ← pop
  let n ← expectInt v
  match v with
  | .boolean _ => raise (.mistyped "int" "boolean" (← site))
  | _ => do
    push (.narrow target.type n)
    return .next

end Exec

open Exec in
/-- Carries out one instruction. -/
def execute : Instruction → Exec Control
  | .push v => do push v; return .next
  | .load category slot => do
    push (← expectCategory category (← orRaise ((← get).frame.load (.int slot))))
    return .next
  | .store category slot => do
    let v ← expectCategory category (← pop)
    modify fun act => { act with frame := act.frame.store (.int slot) v }
    return .next
  | .binary operator => binary operator
  | .negate => do push (.narrow .int (-(← popInt))); return .next
  | .incr slot amount => incr slot amount
  | .dup => do push (← orRaise (OperandStack.peek (← get).frame.stack)); return .next
  | .pop => do let _ ← pop; return .next
  | .branch condition target => branch condition target
  | .branchZero condition target => branchZero condition target
  | .goto target => return .jump target
  | .get isStatic field => if isStatic then getStatic field else getField field
  | .put isStatic field => if isStatic then putStatic field else putField field
  | .new className => newObject className
  | .newArray element => newArray element
  | .arrayLoad _ => arrayLoad
  | .arrayStore _ => arrayStore
  | .arrayLength => arrayLength
  | .invoke access method => invoke access method
  | .return category => leave category
  | .cast target => cast target

end Bytecode
