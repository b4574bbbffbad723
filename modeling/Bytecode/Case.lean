import Bytecode.Arguments
import Bytecode.Interpreter
/-!
# Cases and listings

A case is a method and its arguments, both given as text. Running it checks the arguments before
anything is looked up. A listing shows the decoded instructions of a method.
-/
namespace Bytecode

namespace Case

/-- The arguments of a case for which none are given. -/
def noArguments : Text := "()"

/-- The directory in which class files are looked for by default. -/
def defaultDirectory : Text := "decompiled"

/-- The method of a case and its checked arguments. -/
def read (method arguments : Text) : Except Fault (MethodId × List Value) := do
  let method ← MethodId.parse method
  let values ← Arguments.parse arguments
  Arguments.check method values
  .ok (method, values)

/-- Runs a case with an interpreter. -/
def run (method arguments : Text) (interpreter : Interpreter) :
    Except Fault Report × Interpreter :=
  match read method arguments with
  | .ok (method, values) => interpreter.runMethod method values
  | .error fault => (.error fault, interpreter)

end Case

namespace Listing

/-- One line: the index in three places and the instruction. -/
def line (entry : Instruction × Nat) : Text :=
  (Text.ofNat entry.2).padLeft 3 48 ++ " | " ++ entry.1.text

def ofCode (code : Code) : List Text := code.toList.zipIdx.map line

/-- The listing of a method that is looked up in a program image. -/
def ofMethod (method : Text) (image : Image) : Except Fault (List Text) := do
  let method ← MethodId.parse method
  match Image.code method image with
  | .ok code _ => .ok (ofCode code)
  | .error fault _ => .error fault

end Listing

end Bytecode
