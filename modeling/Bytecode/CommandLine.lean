import Bytecode.CommandLine.Options
/-!
# The command line

`interpret <method> [inputs]` runs a case and prints its outcome, `disassemble <method>` prints a
listing, `info` prints what the program is. `Command.ofArguments` reads the arguments,
`Command.perform` gives all that is printed, on the class files of a directory.
-/
namespace Bytecode.CommandLine

inductive Command where
  | version
  | info
  | interpret (method arguments : Text) (options : Options)
  | disassemble (method : Text) (options : Options)
deriving Repr

/-- What a command leads to. A fault is reported and also kept, since a class file that was missing
may still be provided. -/
structure Result where
  exit : Nat
  stdout : List Text
  stderr : List Text
  fault : Option Fault

def versionText : Text := "1.0.0"

def infoLines : List Text :=
  ["jvmstep", versionText, "jvm-stepper", "dynamic,interpreter,typescript", "no"]

/-- Whether an argument asks for the version; nothing behind `-V` counts. -/
def asksForVersion (argument : Text) : Bool :=
  (Text.dropLead? "-V" argument).isSome || argument = "--version"

/-- The arguments of a command among those behind its name: `before` stood before all options. -/
def readCommand (flags : List Flag) (before rest : List Text) :
    Except UsageError (List Text × Options) := do
  let p ← scan flags rest .empty
  match p.unknown with
  | unknown :: _ => .error (.unknownOption unknown)
  | [] => .ok (before ++ p.operands, p.options)

namespace Command

/-- A command by its name. Arguments that it does not take are ignored. -/
def named (name : Text) (before rest : List Text) : Except UsageError Command := do
  if name = "interpret" then
    match ← readCommand [.directory, .maxSteps, .traced] before rest with
    | ([], _) => .error .missingMethod
    | ([method], options) => .ok (interpret method Case.noArguments options)
    | (method :: arguments :: _, options) => .ok (interpret method arguments options)
  else if name = "disassemble" then
    match ← readCommand [.directory] before rest with
    | ([], _) => .error .missingMethod
    | (method :: _, options) => .ok (disassemble method options)
  else if name = "info" then
    let _ ← readCommand [] before rest
    .ok info
  else .error (.unknownCommand name)

/-- The command that arguments ask for. A request for the version goes before everything else. -/
def ofArguments (arguments : List Text) : Except UsageError Command := do
  if (arguments.takeWhile (· ≠ Text.ofString "--")).any asksForVersion then .ok version
  else
    let p ← scan [] arguments .empty
    match p.operands, p.unknown with
    | name :: before, rest => named name before rest
    | [], unknown :: _ => .error (.unknownOption unknown)
    | [], [] => .error .noCommand

/-- The directory of class files: the option's, else the given one, else the default. -/
def image (given : Option Text) (files : Table Text Document) (options : Options) : Image :=
  .directory (.ofFiles ((options.directory.or given).getD Case.defaultDirectory) files)

/-- The lines that a fault is reported with, behind those of a trace. -/
def failure (trace : List Text) (fault : Fault) : Result :=
  ⟨1, [], trace ++ [fault.label ++ ": " ++ fault.message], some fault⟩

/-- Does what a command asks for. -/
def perform (given : Option Text) (files : Table Text Document) : Command → Result
  | version => ⟨0, [versionText], [], none⟩
  | info => ⟨0, infoLines, [], none⟩
  | interpret method arguments options =>
    let interpreter := Interpreter.ofImage (image given files options)
      (options.maxSteps.getD Interpreter.defaultMaxSteps) options.traced
    match Case.run method arguments interpreter with
    | (.ok report, after) => ⟨0, [report.outcome], after.trace.toList, none⟩
    | (.error fault, after) => failure after.trace.toList fault
  | disassemble method options =>
    match Listing.ofMethod method (image given files options) with
    | .ok lines => ⟨0, lines, [], none⟩
    | .error fault => failure [] fault

end Command

/-- Refuses a command line. -/
def refuse (error : UsageError) : Result :=
  ⟨1, [], [Text.ofString "error: " ++ error.message], none⟩

/-- All that a command line leads to: `given` names the directory of class files if no option does. -/
def run (given : Option Text) (files : Table Text Document) (arguments : List Text) : Result :=
  match Command.ofArguments arguments with
  | .ok command => command.perform given files
  | .error error => refuse error

/-- Lines as they are printed. -/
def printed (lines : List Text) : Text := lines.flatMap fun line => line ++ "\n"

end Bytecode.CommandLine
