import Bytecode.Number.Shortest
import Bytecode.Ty
/-!
# Method identifiers, field references and program counters

A method is known by its class, its name and its signature, a field by its class, its name and its
type. Class names separate their packages by slashes. The texts of identifiers and references also
serve as keys of tables: they determine what they name as long as class names hold no `.`, method and
field names no `:` and class types no `;`.
-/
namespace Bytecode

structure MethodId where
  className : Text
  name : Text
  params : List Ty
  /-- `none` for a method that returns nothing. -/
  returns : Option Ty
deriving Repr, DecidableEq

structure FieldRef where
  className : Text
  name : Text
  type : Ty
deriving Repr, DecidableEq

/-- The parameters' descriptors in parentheses and then the result's, `V` for none. -/
def signatureText (params : List Ty) (returns : Option Ty) : Text :=
  Text.ofString "(" ++ params.flatMap Ty.descriptor ++ ")" ++
    match returns with
    | none => "V"
    | some type => type.descriptor

namespace MethodId

def descriptor (method : MethodId) : Text := signatureText method.params method.returns

def text (method : MethodId) : Text :=
  method.className ++ "." ++ method.name ++ ":" ++ method.descriptor

def objectClass : Text := "java/lang/Object"

def constructorName : Text := "<init>"

/-- The constructor that every chain of constructors ends in. It does nothing. -/
def isObjectConstructor (method : MethodId) : Bool :=
  method.className = objectClass && method.name = constructorName

end MethodId

def FieldRef.text (field : FieldRef) : Text :=
  field.className ++ "." ++ field.name ++ ":" ++ field.type.descriptor

/-- A method and the index of an instruction in it. -/
structure ProgramCounter where
  method : MethodId
  /-- Any number; instructions stand at the natural ones. -/
  offset : Number
deriving Repr, DecidableEq

namespace ProgramCounter

def start (method : MethodId) : ProgramCounter := ⟨method, .int 0⟩

/-- Moves by a number of instructions. -/
def advance (pc : ProgramCounter) (delta : Number) : ProgramCounter :=
  { pc with offset := pc.offset.add delta }

def jump (pc : ProgramCounter) (target : Number) : ProgramCounter := { pc with offset := target }

def text (pc : ProgramCounter) : Text := pc.method.text ++ ":" ++ pc.offset.text

end ProgramCounter

end Bytecode
