import Bytecode.Json.Writer
import Bytecode.MethodId
/-!
# Faults

Everything that can go wrong outside the program under execution: arguments that cannot be read,
class files that cannot be found or decoded, and code that breaks the machine's rules. A fault ends
a run without an outcome. `Fault.label` names its family and `Fault.message` says what happened.
-/
namespace Bytecode

/-- What an argument literal lacks. -/
inductive LiteralProblem where
  | missing (token : CodeUnit)
  | trailingCharacters
  | malformedChar
  | noValue
  | outOfRange (digits : Text)
  | noElementType
  | wrongElement (type : Primitive)
deriving Repr, DecidableEq

/-- Texts of the caller that cannot be read, and arguments that do not fit their method. -/
inductive InputFault where
  | truncatedDescriptor (descriptor : Text)
  | unterminatedClass (descriptor : Text)
  | unknownType (letter : CodeUnit) (descriptor : Text)
  | trailingCharacters (descriptor : Text)
  | noParameterList (descriptor : Text)
  | noDescriptor (method : Text)
  | notQualified (method : Text)
  | literal (text : Text) (position : Nat) (problem : LiteralProblem)
  | argumentCount (method : MethodId) (got : Nat)
  | argumentType (index : Nat) (method : MethodId) (expected : Ty) (got : Text)
deriving Repr, DecidableEq

/-- Records and machine states that no well-formed class file leads to. -/
inductive Malformation where
  | notAnObject (what : Text) (got : Option Json)
  | notAString (key : Text) (record : Json)
  | notAnInteger (key : Text) (record : Json)
  | notAnArray (key : Text) (record : Json)
  | unknownType (got : Json)
  | badConstant (got : Json)
  | stackUnderflow
  | peekUnderflow
  | danglingReference (ref : Number)
  | callStackEmpty
  | returnWithoutCall
  | offTheEnd (pc : ProgramCounter) (length : Nat)
  | noSuchField (field : FieldRef) (ref : Number)
deriving Repr

/-- Records that are well formed and stand for something the machine does not do. -/
inductive Unsupported where
  | record (record : Json)
  | operandType (got : Option Json)
  | localType (got : Option Json)
  | operator (got : Option Json)
  | condition (got : Option Json)
  | access (got : Option Json)
  | cast (source target : Primitive)
deriving Repr

/-- What the program image does not hold. -/
inductive ImageFault where
  | classNotFound (className : Text)
  | classFileNotFound (className path : Text)
  | unreadableClassFile (path : Text)
  | methodNotFound (method : MethodId)
  | staticFieldNotFound (field : FieldRef)
  | constantOfReference (field : FieldRef)
  | unsupportedConstant (value : Json) (className fieldName : Text)
deriving Repr

inductive Fault where
  | input (cause : InputFault)
  | malformed (cause : Malformation)
  | unsupported (cause : Unsupported)
  | unwrittenLocal (slot : Number) (site : Text)
  | mistyped (expected got site : Text)
  | image (cause : ImageFault)
deriving Repr

namespace LiteralProblem

def message : LiteralProblem → Text
  | missing token => Text.ofString "expected '" ++ [token] ++ "'"
  | trailingCharacters => "trailing characters"
  | malformedChar => "malformed char literal"
  | noValue => "expected a value"
  | outOfRange digits => digits ++ " does not fit in an int"
  | noElementType => "array literal must start with I:, C: or Z:"
  | wrongElement type => Text.ofString "expected " ++ type.name ++ " element"

end LiteralProblem

def InputFault.message : InputFault → Text
  | truncatedDescriptor d => Text.ofString "Truncated descriptor " ++ Text.quoted d
  | unterminatedClass d => Text.ofString "Unterminated class type in descriptor " ++ Text.quoted d
  | unknownType letter d =>
    Text.ofString "Unknown type " ++ Text.quoted [letter] ++ " in descriptor " ++ Text.quoted d
  | trailingCharacters d => Text.ofString "Trailing characters in descriptor " ++ Text.quoted d
  | noParameterList d => Text.ofString "Method descriptor must start with '(': " ++ Text.quoted d
  | noDescriptor m => Text.ofString "Method identifier " ++ Text.quoted m ++ " has no descriptor"
  | notQualified m =>
    Text.ofString "Method identifier " ++ Text.quoted m ++ " must be <class>.<method>:<descriptor>"
  | literal t position problem =>
    Text.ofString "Bad input " ++ Text.quoted t ++ " at " ++ Text.ofNat position ++ ": " ++
      problem.message
  | argumentCount m got =>
    m.text ++ " expects " ++ Text.ofNat m.params.length ++ " arguments but got " ++ Text.ofNat got
  | argumentType index m expected got =>
    Text.ofString "Argument " ++ Text.ofNat index ++ " of " ++ m.text ++ " must be " ++
      expected.text ++ ", got " ++ got

def Malformation.message : Malformation → Text
  | notAnObject what got =>
    Text.ofString "Expected " ++ what ++ " to be an object, got " ++ Json.describe got
  | notAString key record => Text.ofString "Expected string " ++ Text.quoted key ++ " in " ++ record.text
  | notAnInteger key record =>
    Text.ofString "Expected integer " ++ Text.quoted key ++ " in " ++ record.text
  | notAnArray key record => Text.ofString "Expected array " ++ Text.quoted key ++ " in " ++ record.text
  | unknownType got => Text.ofString "Unknown type encoding " ++ got.text
  | badConstant got => Text.ofString "Bad constant value " ++ got.text
  | stackUnderflow => "Stack underflow"
  | peekUnderflow => "Stack underflow on peek"
  | danglingReference ref => Text.ofString "Dangling heap reference @" ++ ref.text
  | callStackEmpty => "Call stack is empty"
  | returnWithoutCall => "Return with an empty call stack"
  | offTheEnd pc length =>
    Text.ofString "PC " ++ pc.text ++ " out of bounds (method has " ++ Text.ofNat length ++
      " instructions)"
  | noSuchField field ref =>
    Text.ofString "Field " ++ field.text ++ " not found in object @" ++ ref.text

def Unsupported.description : Unsupported → Text
  | record r => r.text
  | operandType got => Text.ofString "operand type " ++ Json.describe got
  | localType got => Text.ofString "local of type " ++ Json.describe got
  | operator got => Text.ofString "binary operator " ++ Json.describe got
  | condition got => Text.ofString "branch condition " ++ Json.describe got
  | access got => Text.ofString "invoke " ++ Json.describe got
  | cast source target => Text.ofString "cast " ++ source.name ++ " to " ++ target.name

def ImageFault.message : ImageFault → Text
  | classNotFound c => Text.ofString "Class not found: " ++ c
  | classFileNotFound c path =>
    Text.ofString "Class not found: " ++ c ++ " (looked for " ++ Text.quoted path ++ ")"
  | unreadableClassFile path => Text.ofString "Cannot read class file " ++ Text.quoted path
  | methodNotFound m => Text.ofString "Method not found: " ++ m.text
  | staticFieldNotFound field => Text.ofString "Static field not found: " ++ field.text
  | constantOfReference field => Text.ofString "Cannot materialize constant of " ++ field.text
  | unsupportedConstant value c f =>
    Text.ofString "Unsupported constant " ++ value.text ++ " for " ++ c ++ "." ++ f

namespace Fault

/-- The name under which a fault's family is reported. -/
def label : Fault → Text
  | input _ => "InputParseError"
  | malformed _ => "MalformedBytecodeError"
  | unsupported _ => "UnsupportedInstructionError"
  | unwrittenLocal .. => "UninitializedLocalError"
  | mistyped .. => "TypeAssertionError"
  | image _ => "SuiteError"

def message : Fault → Text
  | input cause => cause.message
  | malformed cause => cause.message
  | unsupported cause => Text.ofString "Unsupported instruction: " ++ cause.description
  | unwrittenLocal slot site =>
    Text.ofString "Local slot " ++ slot.text ++ " read before write at " ++ site
  | mistyped expected got site =>
    Text.ofString "TypeError: expected " ++ expected ++ " but got " ++ got ++ " at " ++ site
  | image cause => cause.message

end Fault

end Bytecode
