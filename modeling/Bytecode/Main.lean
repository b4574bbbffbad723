import Bytecode.CommandLine
/-!
# The program

Class files are read from disk as they are needed: when a run asked for one in vain and it exists,
the command is performed again from the start with that file.
-/
namespace Bytecode.CommandLine

/-- The content of a file, if there is one. What is not text reads as an empty file. -/
def readDocument (path : Text) : IO (Option Document) := do
  try
    let bytes ← IO.FS.readBinFile path.toString
    return some (.text (Text.ofString ((String.fromUTF8? bytes).getD "")))
  catch _ => return none

/-- Runs a command line, with one more class file as long as one that exists was missing. -/
partial def runOnDisk (given : Option Text) (arguments : List Text) (files : Table Text Document) :
    IO Result := do
  let result := run given files arguments
  match result.fault with
  | some (.image (.classFileNotFound _ path)) =>
    match ← readDocument path with
    | some document => runOnDisk given arguments (Table.insert path document files)
    | none => return result
  | _ => return result

end Bytecode.CommandLine

open Bytecode in
def main (arguments : List String) : IO UInt32 := do
  let given := (← IO.getEnv "JVMSTEP_SUITE").map Text.ofString
  let result ← CommandLine.runOnDisk given (arguments.map Text.ofString) []
  IO.eprint (CommandLine.printed result.stderr).toString
  IO.print (CommandLine.printed result.stdout).toString
  return UInt32.ofNat result.exit
