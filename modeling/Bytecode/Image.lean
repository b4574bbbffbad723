import Bytecode.Image.Directory
import Bytecode.Image.Registry
/-!
# Program images

Where a run finds its program: in classes registered beforehand or in a directory of class files.
-/
namespace Bytecode

inductive Image where
  | registry (r : Registry)
  | directory (d : Directory)
deriving Repr

namespace Image

/-- The outcome of looking something up in a directory, as the outcome for the image. -/
def ofDirectory {α : Type} (result : EStateM.Result Fault Directory α) :
    EStateM.Result Fault Image α :=
  match result with
  | .ok a d => .ok a (.directory d)
  | .error fault d => .error fault (.directory d)

/-- The outcome of looking something up in a registry, which stays as it is. -/
def ofRegistry {α : Type} (r : Registry) (result : Except Fault α) :
    EStateM.Result Fault Image α :=
  match result with
  | .ok a => .ok a (.registry r)
  | .error fault => .error fault (.registry r)

/-- The body of a method. -/
def code (method : MethodId) : EStateM Fault Image Code
  | .registry r => ofRegistry r (r.code method)
  | .directory d => ofDirectory (Directory.code method d)

/-- The declared fields of a class. -/
def classInfo (className : Text) : EStateM Fault Image ClassInfo
  | .registry r => ofRegistry r (r.classInfo className)
  | .directory d => ofDirectory (Directory.classInfo className d)

end Image

end Bytecode
