import Bytecode.Image.ClassFile
import Bytecode.Image.Path
import Bytecode.Json.Reader
/-!
# Directories of class files

A program image of class files below a root. A class file is read when its class is first needed and
is kept from then on, also when the file changes; a class that could not be loaded is looked for
again.
-/
namespace Bytecode

/-- What a file holds: a text still to be read, or a JSON value. -/
inductive Document where
  | text (t : Text)
  | json (value : Json)
deriving Repr

def Document.value? : Document → Option Json
  | text t => (Json.read t).toOption
  | json value => some value

structure Directory where
  root : Text
  files : Table Text Document
  /-- The class files that were read. -/
  loaded : Table Text ClassFile
deriving Repr

namespace Directory

def ofFiles (root : Text) (files : Table Text Document) : Directory := ⟨root, files, []⟩

def classFilePath (className : Text) (directory : Directory) : Text :=
  Path.join (directory.root :: Text.split '/' className) ++ ".json"

/-- Reads the class file of a class. -/
def read (className : Text) (directory : Directory) : Except Fault ClassFile :=
  let path := directory.classFilePath className
  match Table.get? path directory.files with
  | none => .error (.image (.classFileNotFound className path))
  | some document =>
    match document.value? with
    | none => .error (.image (.unreadableClassFile path))
    | some json => ClassFile.ofJson className json

/-- The class file of a class, read at the first time. -/
def load (className : Text) : EStateM Fault Directory ClassFile := fun directory =>
  match Table.get? className directory.loaded with
  | some file => .ok file directory
  | none =>
    match directory.read className with
    | .ok file =>
      .ok file { directory with loaded := Table.insert className file directory.loaded }
    | .error fault => .error fault directory

def code (method : MethodId) : EStateM Fault Directory Code := do
  match (← load method.className).code method with
  | .ok code => return code
  | .error fault => throw fault

def classInfo (className : Text) : EStateM Fault Directory ClassInfo := do
  return (← load className).info

end Directory

end Bytecode
