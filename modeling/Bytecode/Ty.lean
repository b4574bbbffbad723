import Bytecode.Text
/-!
# Types

The types of fields, parameters and array elements. `Ty.descriptor` is the encoding that identifies
a type inside method and field identifiers; `Ty.text` is how a type is shown to people.
-/
namespace Bytecode

inductive Primitive where
  | int
  | boolean
  | char
  | short
  | byte
deriving Inhabited, Repr, DecidableEq

inductive Ty where
  | primitive (p : Primitive)
  | array (element : Ty)
  | object (className : Text)
deriving Inhabited, Repr, DecidableEq

namespace Primitive

def all : List Primitive := [int, boolean, char, short, byte]

def name : Primitive → Text
  | int => "int"
  | boolean => "boolean"
  | char => "char"
  | short => "short"
  | byte => "byte"

/-- The letter that stands for the type in a descriptor. -/
def letter : Primitive → CodeUnit
  | int => 'I'
  | boolean => 'Z'
  | char => 'C'
  | short => 'S'
  | byte => 'B'

def ofName? (t : Text) : Option Primitive := all.find? (·.name = t)

def ofLetter? (u : CodeUnit) : Option Primitive := all.find? (·.letter = u)

end Primitive

namespace Ty

def isReference : Ty → Bool
  | primitive _ => false
  | _ => true

/-- Structural equality: arrays of the same elements, classes of the same name. -/
def same : Ty → Ty → Bool
  | primitive p, primitive q => p = q
  | array element, array element' => element.same element'
  | object className, object className' => className = className'
  | _, _ => false

/-- A letter, `[` before the element's descriptor, or a class name between `L` and `;`. -/
def descriptor : Ty → Text
  | primitive p => [p.letter]
  | array element => CodeUnit.ofChar '[' :: element.descriptor
  | object className => Text.ofString "L" ++ className ++ ";"

def text : Ty → Text
  | primitive p => p.name
  | array element => element.text ++ "[]"
  | object className => className

@[simp] theorem same_eq_true_iff {type other : Ty} : type.same other = true ↔ type = other := by
  induction type generalizing other with
  | primitive p => cases other <;> simp [same]
  | array element ih => cases other <;> simp [same, ih]
  | object className => cases other <;> simp [same]

end Ty

end Bytecode
