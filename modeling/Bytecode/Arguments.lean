import Bytecode.Descriptor
import Bytecode.Value
/-!
# Argument literals

Arguments of a run are written `(10, true, 'a', [I:1,2], [C:'h','i'])`. Blanks may stand before
every token; inside a quoted char nothing is skipped, and the letter of an array directly follows
its bracket. `Arguments.parse` reads such a text, `Arguments.check` compares what was read with the
parameters of a method.
-/
namespace Bytecode.Arguments

/-- A reader consumes the front of what is left; a problem leaves the rest from where it arose. -/
abbrev Reader := EStateM LiteralProblem Text

def skipBlanks : Reader Unit := modify Text.dropBlanks

/-- Consumes blanks, and then the token if it is next. -/
def accept (token : CodeUnit) : Reader Bool := do
  skipBlanks
  match ← get with
  | [] => return false
  | u :: rest =>
    if u = token then
      set rest
      return true
    else return false

def expect (token : CodeUnit) : Reader Unit := do
  if ← accept token then return () else throw (.missing token)

/-- A char literal after its opening quote: one unit of any kind and a closing quote. -/
def readChar (literal : Text) : Reader Value :=
  match literal with
  | u :: quote :: rest =>
    if quote = '\'' then do
      set rest
      return .char u.toNat
    else throw .malformedChar
  | _ => throw .malformedChar

/-- The digits of a number with its sign, and what follows; at least one digit. -/
def spanNumber (t : Text) : Option (Text × Text) :=
  let (sign, unsigned) := match t with
    | [] => ([], [])
    | u :: rest => if u = '-' then ([u], rest) else ([], u :: rest)
  let (digits, rest) := unsigned.span CodeUnit.isDigit
  if digits.isEmpty then none else some (sign ++ digits, rest)

/-- The integer that digits after an optional minus sign stand for. -/
def integerValue : Text → Int
  | [] => 0
  | u :: digits =>
    if u = '-' then -(Text.digitsValue digits : Int) else Text.digitsValue (u :: digits)

/-- A char, an integer or a boolean. An integer has to lie in the range of its type. -/
def readScalar : Reader Value := do
  skipBlanks
  let t ← get
  if let some literal := Text.dropLead? "'" t then
    readChar literal
  else if let some (digits, rest) := spanNumber t then do
    set rest
    let n := integerValue digits
    if -2147483648 ≤ n && n ≤ 2147483647 then return .int n else throw (.outOfRange digits)
  else if let some rest := Text.dropLead? "true" t then do
    set rest
    return .boolean true
  else if let some rest := Text.dropLead? "false" t then do
    set rest
    return .boolean false
  else throw .noValue

/-- One item after another while commas follow. The bound is never met when it is the length of
the text, since every comma takes a unit. -/
def readItems (item : Reader Value) : Nat → Reader (List Value)
  | 0 => throw .noValue
  | bound + 1 => do
    let first ← item
    if ← accept ',' then return first :: (← readItems item bound)
    else return [first]

/-- Items between an opening token that was read already and a closing one. -/
def readUntil (close : CodeUnit) (item : Reader Value) : Reader (List Value) := do
  if ← accept close then return []
  else
    let items ← readItems item ((← get).length + 1)
    expect close
    return items

/-- The element type that the letter of an array literal names. -/
def elementType? (u : CodeUnit) : Option Primitive :=
  [Primitive.int, .char, .boolean].find? (·.letter = u)

/-- A scalar of the element type. -/
def readElement (type : Primitive) : Reader Value := do
  let v ← readScalar
  if v.kind = type.name then return v else throw (.wrongElement type)

/-- An array literal after its opening bracket. -/
def readArray : Reader Value := do
  match ← get with
  | [] => throw .noElementType
  | u :: rest =>
    match elementType? u with
    | none => throw .noElementType
    | some type =>
      set rest
      expect ':'
      return .array (.primitive type) (← readUntil ']' (readElement type))

def readValue : Reader Value := do
  if ← accept '[' then readArray else readScalar

def readAll : Reader (List Value) := do
  expect '('
  let values ← readUntil ')' readValue
  skipBlanks
  if (← get).isEmpty then return values else throw .trailingCharacters

/-- The values that a text lists. A problem is reported with its position in the trimmed text. -/
def parse (text : Text) : Except Fault (List Value) :=
  let trimmed := Text.trim text
  match readAll trimmed with
  | .ok values _ => .ok values
  | .error problem rest =>
    .error (.input (.literal trimmed (trimmed.length - rest.length) problem))

/-- The type of an argument; only scalars and arrays can be arguments. -/
def typeOf? : Value → Option Ty
  | .int _ => some (.primitive .int)
  | .boolean _ => some (.primitive .boolean)
  | .char _ => some (.primitive .char)
  | .short _ => some (.primitive .short)
  | .byte _ => some (.primitive .byte)
  | .array element _ => some (.array element)
  | .reference _ | .object .. => none

/-- How messages name the type of an argument. -/
def typeText (v : Value) : Text :=
  match typeOf? v with
  | some type => type.text
  | none => v.kind

/-- Compares each argument with the parameter it stands for; the index counts from the first. -/
def checkTypes (method : MethodId) : Nat → List Ty → List Value → Except Fault Unit
  | index, expected :: params, v :: values =>
    if (typeOf? v).any expected.same then checkTypes method (index + 1) params values
    else .error (.input (.argumentType index method expected (typeText v)))
  | _, _, _ => .ok ()

/-- Whether there are as many arguments as parameters, each of its parameter's type. -/
def check (method : MethodId) (values : List Value) : Except Fault Unit :=
  if values.length ≠ method.params.length then
    .error (.input (.argumentCount method values.length))
  else checkTypes method 0 method.params values

end Bytecode.Arguments
