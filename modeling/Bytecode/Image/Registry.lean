import Bytecode.Fault
import Bytecode.Image.ClassInfo
import Bytecode.Instruction
/-!
# Registered classes

A program image whose classes and methods are registered one after another. Fields registered for a
class add to those it has; a method registered again replaces the earlier one.
-/
namespace Bytecode

/-- The fields and the methods registered for a class, the methods by name and signature. -/
structure RegisteredClass where
  fields : List FieldInfo
  methods : Table Text Code
deriving Repr

structure Registry where
  classes : Table Text RegisteredClass
deriving Repr

namespace Registry

def empty : Registry := ⟨[]⟩

/-- The key of a method within its class. -/
def methodKey (method : MethodId) : Text := method.name ++ ":" ++ method.descriptor

/-- What is registered for a class, nothing if the class is not. -/
def registered (className : Text) (registry : Registry) : RegisteredClass :=
  (Table.get? className registry.classes).getD ⟨[], []⟩

def addClass (className : Text) (fields : List FieldInfo) (registry : Registry) : Registry :=
  let known := registry.registered className
  ⟨Table.insert className { known with fields := known.fields ++ fields } registry.classes⟩

def addMethod (method : MethodId) (code : Code) (registry : Registry) : Registry :=
  let known := registry.registered method.className
  ⟨Table.insert method.className
    { known with methods := Table.insert (methodKey method) code known.methods } registry.classes⟩

def find (className : Text) (registry : Registry) : Except Fault RegisteredClass :=
  match Table.get? className registry.classes with
  | some known => .ok known
  | none => .error (.image (.classNotFound className))

def code (method : MethodId) (registry : Registry) : Except Fault Code := do
  let known ← registry.find method.className
  match Table.get? (methodKey method) known.methods with
  | some code => .ok code
  | none => .error (.image (.methodNotFound method))

def classInfo (className : Text) (registry : Registry) : Except Fault ClassInfo := do
  let known ← registry.find className
  .ok ⟨className, known.fields⟩

end Registry

end Bytecode
