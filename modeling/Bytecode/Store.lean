import Bytecode.Image
/-!
# The store of a run

A run fetches method bodies and class declarations through a store, which keeps what it fetched,
method bodies by the texts of their identifiers. What could not be fetched is not remembered.
-/
namespace Bytecode

structure Store where
  image : Image
  methods : Table Text Code
  classes : Table Text ClassInfo
deriving Repr

namespace Store

/-- A store that has fetched nothing yet. -/
def ofImage (image : Image) : Store := ⟨image, [], []⟩

/-- Looks something up in the image. -/
def onImage {α : Type} (action : EStateM Fault Image α) : EStateM Fault Store α := fun store =>
  match action store.image with
  | .ok a image => .ok a { store with image }
  | .error fault image => .error fault { store with image }

/-- The body of a method. -/
def code (method : MethodId) : EStateM Fault Store Code := do
  match Table.get? method.text (← get).methods with
  | some code => return code
  | none =>
    let code ← onImage (Image.code method)
    modify fun store => { store with methods := Table.insert method.text code store.methods }
    return code

/-- The instruction at an offset of a body. -/
def instruction? (code : Code) (offset : Number) : Option Instruction :=
  match offset with
  | .int n => if 0 ≤ n then code[n.toNat]? else none
  | _ => none

/-- The instruction at a program counter. -/
def fetch (pc : ProgramCounter) : EStateM Fault Store Instruction := do
  let code ← code pc.method
  match instruction? code pc.offset with
  | some instruction => return instruction
  | none => throw (.malformed (.offTheEnd pc code.size))

/-- The declared fields of a class. -/
def classInfo (className : Text) : EStateM Fault Store ClassInfo := do
  match Table.get? className (← get).classes with
  | some info => return info
  | none =>
    let info ← onImage (Image.classInfo className)
    modify fun store => { store with classes := Table.insert className info store.classes }
    return info

/-- The value that a static field has before it is written: its constant as a value of its declared
type, or that type's default. -/
def initialStatic (field : FieldRef) (info : ClassInfo) : Except Fault Value :=
  match info.fields.find? fun f => f.isStatic && f.name = field.name with
  | none => .error (.image (.staticFieldNotFound field))
  | some declared =>
    match declared.value, declared.type with
    | none, type | some .null, type => .ok (.default type)
    | some constant, .primitive p => .ok (.ofConstant p constant)
    | some _, _ => .error (.image (.constantOfReference field))

def staticValue (field : FieldRef) : EStateM Fault Store Value := do
  match initialStatic field (← classInfo field.className) with
  | .ok v => return v
  | .error fault => throw fault

/-- How many method bodies were fetched. -/
def cachedMethodCount (store : Store) : Nat := store.methods.length

end Store

end Bytecode
