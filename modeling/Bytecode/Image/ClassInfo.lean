import Bytecode.Value
/-!
# Class declarations

What a class says about its fields. A static field may carry the constant it starts with.
-/
namespace Bytecode

/-- A field that a class declares. -/
structure FieldInfo where
  name : Text
  type : Ty
  isStatic : Bool
  /-- The initial value, when the class carries one. -/
  value : Option Constant
deriving Repr

structure ClassInfo where
  name : Text
  fields : List FieldInfo
deriving Repr

end Bytecode
