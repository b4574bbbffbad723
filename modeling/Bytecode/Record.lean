import Bytecode.Fault
/-!
# Records

The parts of a JSON class file, each checked when it is read. A member that is missing and a member
that is `null` are different things.
-/
namespace Bytecode

namespace Record

/-- An object, named in the message when it is something else. -/
def object (what : Text) (json : Option Json) : Except Fault Json :=
  match json with
  | some (.object members) => .ok (.object members)
  | got => .error (.malformed (.notAnObject what got))

def string (key : Text) (record : Json) : Except Fault Text :=
  match record.get? key with
  | some (.string t) => .ok t
  | _ => .error (.malformed (.notAString key record))

def int (key : Text) (record : Json) : Except Fault Int :=
  match record.get? key with
  | some (.number n) =>
    match n.toInt? with
    | some n => .ok n
    | none => .error (.malformed (.notAnInteger key record))
  | _ => .error (.malformed (.notAnInteger key record))

/-- An integer that may be missing. -/
def intOr (fallback : Int) (key : Text) (record : Json) : Except Fault Int :=
  match record.get? key with
  | none => .ok fallback
  | some _ => int key record

def items (key : Text) (record : Json) : Except Fault (List Json) :=
  match record.get? key with
  | some (.array items) => .ok items
  | _ => .error (.malformed (.notAnArray key record))

/-- Only the value `true` sets a flag. -/
def flag (key : Text) (record : Json) : Bool :=
  match record.get? key with
  | some (.bool b) => b
  | _ => false

end Record

/-- A primitive type by its name; `integer` is a second name of `int`. -/
def Primitive.ofJson (json : Option Json) : Except Fault Primitive :=
  match json with
  | some (.string name) =>
    match ofName? name with
    | some p => .ok p
    | none => if name = "integer" then .ok .int else .error (.unsupported (.operandType json))
  | _ => .error (.unsupported (.operandType json))

namespace Ty

mutual

/-- The record of an array type, with the element's encoding inside it; the record of a class type;
the name of a primitive type, also as the member `base` of a record without a kind. -/
def ofJson : Json → Except Fault Ty
  | .string name => (Primitive.ofJson (some (.string name))).map primitive
  | .object members =>
    let record := Json.object members
    match record.get? "kind", record.get? "base" with
    | none, some base => (Primitive.ofJson (some base)).map primitive
    | some (.string kind), _ =>
      if kind = "array" then (ofMember "type" members).map array
      else if kind = "class" then (Record.string "name" record).map object
      else .error (.malformed (.unknownType record))
    | _, _ => .error (.malformed (.unknownType record))
  | json => .error (.malformed (.notAnObject "type" (some json)))

/-- The type that a member of a record encodes. -/
def ofMember (key : Text) : List (Text × Json) → Except Fault Ty
  | [] => .error (.malformed (.notAnObject "type" none))
  | (name, json) :: members => if name = key then ofJson json else ofMember key members

end

end Ty

namespace Record

/-- A type that must be there. -/
def type (json : Option Json) : Except Fault Ty :=
  match json with
  | some json => Ty.ofJson json
  | none => .error (.malformed (.notAnObject "type" none))

/-- The result of a method: nothing if the type is missing or `null`. -/
def returnType (json : Option Json) : Except Fault (Option Ty) :=
  match json with
  | none | some .null => .ok none
  | some json => (Ty.ofJson json).map some

def types (json : List Json) : Except Fault (List Ty) := json.mapM Ty.ofJson

end Record

def FieldRef.ofJson (json : Option Json) : Except Fault FieldRef := do
  let record ← Record.object "field reference" json
  let className ← Record.string "class" record
  let name ← Record.string "name" record
  let type ← Record.type (record.get? "type")
  .ok ⟨className, name, type⟩

def MethodId.ofJson (json : Option Json) : Except Fault MethodId := do
  let record ← Record.object "method reference" json
  let className ← Record.string "class" record
  let name ← Record.string "name" record
  let params ← Record.types (← Record.items "args" record)
  let returns ← Record.returnType (record.get? "returns")
  .ok ⟨className, name, params, returns⟩

end Bytecode
