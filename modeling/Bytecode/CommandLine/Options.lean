import Bytecode.Case
/-!
# Options of the command line

Options may stand before, between and behind the arguments of a command. An option with a value
takes it from the same argument (`-sdir`, `--suite=dir`) or else from the next one, whatever that is.
What looks like an option and is none is kept apart, with everything behind it that is no option
either.
-/
namespace Bytecode.CommandLine

/-- Why a command line is refused. -/
inductive UsageError where
  | missingMethod
  | missingValue (option : Text)
  | badBudget (argument : Text)
  | unknownOption (argument : Text)
  | unknownCommand (name : Text)
  | noCommand
deriving Repr, DecidableEq

/-- The options there are. -/
inductive Flag where
  | directory | maxSteps | traced
deriving Repr, DecidableEq

/-- What the options of a command line ask for. -/
structure Options where
  directory : Option Text
  maxSteps : Option Number
  traced : Bool
deriving Repr, DecidableEq

namespace Flag

/-- The one-letter form. -/
def short? : Flag → Option Text
  | directory => some "-s"
  | maxSteps => some "-n"
  | traced => none

def long : Flag → Text
  | directory => "--suite"
  | maxSteps => "--max-steps"
  | traced => "--debug"

def takesValue : Flag → Bool
  | traced => false
  | _ => true

/-- How messages show an option. -/
def usage : Flag → Text
  | directory => "-s, --suite <dir>"
  | maxSteps => "-n, --max-steps <n>"
  | traced => "--debug"

end Flag

def UsageError.message : UsageError → Text
  | missingMethod => "missing required argument 'method'"
  | missingValue option => Text.ofString "option " ++ Text.quoted option ++ " argument missing"
  | badBudget argument =>
    Text.ofString "option " ++ Text.quoted Flag.maxSteps.usage ++ " argument " ++ Text.quoted argument ++
      " is invalid. Must be a positive integer."
  | unknownOption argument => Text.ofString "unknown option " ++ Text.quoted argument
  | unknownCommand name => Text.ofString "unknown command " ++ Text.quoted name
  | noCommand => "missing command"

/-- A budget is a positive integer, in any notation for numbers. -/
def readBudget (argument : Text) : Except UsageError Number :=
  match (Number.ofText argument).toInt? with
  | some n => if 0 < n then .ok (.int n) else .error (.badBudget argument)
  | none => .error (.badBudget argument)

/-- Whether an argument has the form of an option: a hyphen and something behind it. -/
def looksLikeOption (argument : Text) : Bool :=
  match argument with
  | first :: _ :: _ => first = '-'
  | _ => false

/-- What an argument is, given the options of a command. -/
inductive Reading where
  | alone (flag : Flag)
  | valueNext (flag : Flag)
  | valueInside (flag : Flag) (value : Text)
  | other

/-- The option whose value stands in the argument behind its short form. -/
def attached? (flags : List Flag) (argument : Text) : Option (Flag × Text) :=
  flags.findSome? fun flag => do
    let value ← Text.dropLead? (← flag.short?) argument
    if flag.takesValue && !value.isEmpty then some (flag, value) else none

/-- The option whose value stands in the argument behind an equals sign. -/
def assigned? (flags : List Flag) (argument : Text) : Option (Flag × Text) := do
  let (name, value) ← Text.cutFirst '=' argument
  let flag ← flags.find? fun flag => flag.takesValue && flag.long = name
  some (flag, value)

def readArgument (flags : List Flag) (argument : Text) : Reading :=
  match flags.find? fun flag => flag.short? = some argument || flag.long = argument with
  | some flag => if flag.takesValue then .valueNext flag else .alone flag
  | none =>
    match (attached? flags argument).or (assigned? flags argument) with
    | some (flag, value) => .valueInside flag value
    | none => .other

/-- The arguments of a command read so far: those that are no options, those from the first unknown
option on, and what the options ask for. -/
structure Parsed where
  operands : List Text
  unknown : List Text
  options : Options
deriving Repr

namespace Parsed

def empty : Parsed := ⟨[], [], ⟨none, none, false⟩⟩

/-- Adds an argument that is no option of the command. -/
def add (argument : Text) (p : Parsed) : Parsed :=
  if !p.unknown.isEmpty || looksLikeOption argument then
    { p with unknown := p.unknown ++ [argument] }
  else { p with operands := p.operands ++ [argument] }

/-- Adds what stands behind `--`, where nothing is an option. -/
def addRest (arguments : List Text) (p : Parsed) : Parsed :=
  if p.unknown.isEmpty then { p with operands := p.operands ++ arguments }
  else { p with unknown := p.unknown ++ Text.ofString "--" :: arguments }

/-- Gives an option its value. -/
def assign (p : Parsed) (value : Text) : Flag → Except UsageError Parsed
  | .directory => .ok { p with options := { p.options with directory := some value } }
  | .maxSteps => do
    .ok { p with options := { p.options with maxSteps := some (← readBudget value) } }
  | .traced => .ok p

end Parsed

/-- Sorts arguments into options of a command and others. -/
def scan (flags : List Flag) : List Text → Parsed → Except UsageError Parsed
  | [], p => .ok p
  | argument :: rest, p =>
    if argument = "--" then .ok (p.addRest rest)
    else
      match readArgument flags argument with
      | .alone _ => scan flags rest { p with options := { p.options with traced := true } }
      | .valueInside flag value => do scan flags rest (← p.assign value flag)
      | .valueNext flag =>
        match rest with
        | [] => .error (.missingValue flag.usage)
        | value :: rest => do scan flags rest (← p.assign value flag)
      | .other => scan flags rest (p.add argument)

end Bytecode.CommandLine
