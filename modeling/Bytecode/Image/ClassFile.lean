import Bytecode.Image.ClassInfo
import Bytecode.Instruction.Record
/-!
# Class files

A class file is one JSON record. Its fields are read when it is loaded; signatures and bodies of its
methods only when they are asked for, so a class may carry methods that the machine cannot run.
-/
namespace Bytecode

structure ClassFile where
  info : ClassInfo
  /-- The records of the methods. -/
  methods : List Json
deriving Repr

namespace ClassFile

/-- The constant of a field: a missing one and `null` are none. -/
def constant (className fieldName : Text) : Option Json → Except Fault (Option Constant)
  | none | some .null => .ok none
  | some json =>
    match Record.rawConstant? (some json) with
    | some raw => .ok (some raw)
    | none => .error (.image (.unsupportedConstant json className fieldName))

def field (className : Text) (json : Json) : Except Fault FieldInfo := do
  let record ← Record.object "field" (some json)
  let name ← Record.string "name" record
  let value ← constant className name (record.get? "value")
  let type ← Record.type (record.get? "type")
  .ok ⟨name, type, Record.flag "static" record, value⟩

/-- The items of a member that may be missing. -/
def optionalItems (key : Text) (record : Json) : Except Fault (List Json) :=
  match record.get? key with
  | none => .ok []
  | some _ => Record.items key record

/-- The class file that a record stands for. A name that is no string gives way to the one it was
looked up by. -/
def ofJson (className : Text) (json : Json) : Except Fault ClassFile := do
  let record ← Record.object "class file" (some json)
  let name := ((record.get? "name").bind Json.string?).getD className
  let fields ← (← optionalItems "fields" record).mapM (field name)
  let methods ← (← optionalItems "methods" record).mapM fun m => Record.object "method" (some m)
  .ok ⟨⟨name, fields⟩, methods⟩

/-- Whether a record is of a method's name and signature. The parameters are decoded only if the
name and their number fit. -/
def isFor (method : MethodId) (record : Json) : Except Fault Bool := do
  match record.get? "name" with
  | some (.string name) =>
    if name = method.name then
      let params ← Record.items "params" record
      if params.length = method.params.length then
        let params ← Record.types params
        let returns ← Record.returnType (record.get? "returns")
        return signatureText params returns = method.descriptor
      else return false
    else return false
  | _ => return false

/-- The first record of a method's name and signature. -/
def findMethod (method : MethodId) : List Json → Except Fault (Option Json)
  | [] => .ok none
  | record :: records => do
    if ← isFor method record then .ok (some record) else findMethod method records

/-- The instruction records of a body: a list, or a record with a list inside it. -/
def body (record : Json) : Except Fault (List Json) :=
  match record.get? "code" with
  | some (.array items) => .ok items
  | json => do Record.items "bytecode" (← Record.object "code" json)

def code (method : MethodId) (file : ClassFile) : Except Fault Code := do
  match ← findMethod method file.methods with
  | some record => Code.ofJson (← body record)
  | none => .error (.image (.methodNotFound method))

end ClassFile

end Bytecode
