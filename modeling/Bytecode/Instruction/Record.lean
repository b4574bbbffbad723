import Bytecode.Instruction
import Bytecode.Record
/-!
# Instruction records

`Instruction.ofJson` turns the record of an instruction into the instruction. What the machine does
not do is refused here and not when it is met in a run: operations on other types than `int`,
two-word stack operations, arrays of more than one dimension made at once.
-/
namespace Bytecode

namespace Record

/-- A word of a fixed list, and the fault for anything else. -/
def word {α : Type} (all : List α) (name : α → Text) (fault : Option Json → Unsupported)
    (json : Option Json) : Except Fault α :=
  match json with
  | some (.string t) =>
    match named? all name t with
    | some a => .ok a
    | none => .error (.unsupported (fault json))
  | _ => .error (.unsupported (fault json))

def condition (record : Json) : Except Fault Condition :=
  word Condition.all Condition.name .condition (record.get? "condition")

/-- The category of a local: every scalar type counts as `int`. -/
def category (json : Option Json) : Except Fault Category :=
  match json with
  | some (.string t) =>
    if t = "ref" then .ok .ref
    else if (Primitive.ofName? t).isSome then .ok .int
    else .error (.unsupported (.localType json))
  | _ => .error (.unsupported (.localType json))

/-- The category of a returned value: none if the type is missing or `null`. -/
def returnCategory (json : Option Json) : Except Fault (Option Category) :=
  match json with
  | none | some .null => .ok none
  | json => (category json).map some

/-- The element type of an array; `ref` stands for any object. -/
def elementType (json : Option Json) : Except Fault Ty :=
  match json with
  | some (.string t) =>
    if t = "ref" then .ok (.object MethodId.objectClass) else Ty.ofJson (.string t)
  | json => type json

/-- Refuses every type but `int`; the type may be missing. -/
def onlyInt (record : Json) : Except Fault Unit :=
  match record.get? "type" with
  | none => .ok ()
  | json => do
    if (← Primitive.ofJson json) = .int then .ok ()
    else .error (.unsupported (.record record))

/-- Refuses every integer but 1; it may be missing. -/
def onlyOne (key : Text) (record : Json) : Except Fault Unit := do
  if (← intOr 1 key record) = 1 then .ok () else .error (.unsupported (.record record))

/-- The raw value of a constant. -/
def rawConstant? : Option Json → Option Constant
  | some (.number n) => some (.number n)
  | some (.bool b) => some (.boolean b)
  | some (.string t) => some (.text t)
  | _ => none

/-- `null`, or a primitive type and a raw value. -/
def constant (json : Option Json) : Except Fault Value :=
  match json with
  | some .null => .ok .null
  | json => do
    let record ← object "constant" json
    let type ← Primitive.ofJson (record.get? "type")
    match rawConstant? (record.get? "value") with
    | some raw => .ok (.ofConstant type raw)
    | none => .error (.malformed (.badConstant record))

/-- The target of a cast. Only `int` is cast, and only to the narrower types. -/
def castTarget (record : Json) : Except Fault CastTarget := do
  let source ← Primitive.ofJson (record.get? "from")
  let target ← Primitive.ofJson (record.get? "to")
  match source, target with
  | .int, .short => .ok .short
  | .int, .byte => .ok .byte
  | .int, .char => .ok .char
  | _, _ => .error (.unsupported (.cast source target))

end Record

namespace Instruction

open Record

/-- The instruction of an operation, with its operands from the record. -/
def ofRecord (record : Json) : Opcode → Except Fault Instruction
  | .push => return push (← constant (record.get? "value"))
  | .load => return load (← category (record.get? "type")) (← int "index" record)
  | .store => return store (← category (record.get? "type")) (← int "index" record)
  | .binary => do
    onlyInt record
    return binary (← word Operator.all Operator.name .operator (record.get? "operant"))
  | .negate => do
    onlyInt record
    return negate
  | .incr => return incr (← int "index" record) (← int "amount" record)
  | .dup => do
    onlyOne "words" record
    return dup
  | .pop => do
    onlyOne "words" record
    return pop
  | .branch => return branch (← condition record) (← int "target" record)
  | .branchZero => return branchZero (← condition record) (← int "target" record)
  | .goto => return goto (← int "target" record)
  | .get => return get (flag "static" record) (← FieldRef.ofJson (record.get? "field"))
  | .put => return put (flag "static" record) (← FieldRef.ofJson (record.get? "field"))
  | .new => return new (← string "class" record)
  | .newArray => do
    onlyOne "dim" record
    return newArray (← elementType (record.get? "type"))
  | .arrayLoad => return arrayLoad (← elementType (record.get? "type"))
  | .arrayStore => return arrayStore (← elementType (record.get? "type"))
  | .arrayLength => return arrayLength
  | .invoke => do
    let access ← word Access.all Access.name .access (record.get? "access")
    return invoke access (← MethodId.ofJson (record.get? "method"))
  | .return => return .return (← returnCategory (record.get? "type"))
  | .cast => return cast (← castTarget record)

def ofJson (json : Json) : Except Fault Instruction := do
  let record ← object "instruction" (some json)
  let opcode ← word Opcode.all Opcode.name (fun _ => .record record) (record.get? "opr")
  ofRecord record opcode

end Instruction

/-- The code that a list of records stands for; the first bad record is the fault. -/
def Code.ofJson (records : List Json) : Except Fault Code :=
  (records.mapM Instruction.ofJson).map List.toArray

end Bytecode
