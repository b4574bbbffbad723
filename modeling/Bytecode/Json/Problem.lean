import Bytecode.Text
/-!
# Problems of JSON texts

What is wrong with a text that is no JSON, and where. A problem is kept with what is left of the text
where it arose; `Failure.message` says its position in the whole text, or shows what surrounds it.
-/
namespace Bytecode.Json

/-- What is wrong with a text. -/
inductive Problem where
  | textEnds
  /-- No value begins with what stands there, or it continues no word. -/
  | misplaced
  | misplacedNumber
  | misplacedString
  | nameOrBraceExpected
  | nameExpected
  | colonExpected
  | commaOrBraceExpected
  | commaOrBracketExpected
  | unterminatedString
  | controlCharacter
  | badEscape
  | badUnicodeEscape
  | minusWithoutDigits
  | pointWithoutDigits
  | exponentWithoutDigits
  | textAfterValue
deriving Repr, DecidableEq

/-- A problem and what is left of the text from where it arose. -/
structure Failure where
  problem : Problem
  rest : Text
deriving Repr, DecidableEq

/-- What can be said of a problem without showing the text around it. -/
def Problem.description : Problem → Text
  | textEnds => "Unexpected end of JSON input"
  | misplaced => "Unexpected token"
  | misplacedNumber => "Unexpected number in JSON"
  | misplacedString => "Unexpected string in JSON"
  | nameOrBraceExpected => "Expected property name or '\x7d' in JSON"
  | nameExpected => "Expected double-quoted property name in JSON"
  | colonExpected => "Expected ':' after property name in JSON"
  | commaOrBraceExpected => "Expected ',' or '\x7d' after property value in JSON"
  | commaOrBracketExpected => "Expected ',' or ']' after array element in JSON"
  | unterminatedString => "Unterminated string in JSON"
  | controlCharacter => "Bad control character in string literal in JSON"
  | badEscape => "Bad escaped character in JSON"
  | badUnicodeEscape => "Bad Unicode escape in JSON"
  | minusWithoutDigits => "No number after minus sign in JSON"
  | pointWithoutDigits => "Unterminated fractional number in JSON"
  | exponentWithoutDigits => "Exponent part is missing a number in JSON"
  | textAfterValue => "Unexpected non-whitespace character after JSON"

/-- Line and column behind a text, both counted from 1; a return and a line feed make one break. -/
def lineAndColumn : Text → Nat → Nat → Nat × Nat
  | [], line, column => (line, column)
  | 13 :: 10 :: rest, line, _ => lineAndColumn rest (line + 1) 1
  | u :: rest, line, column =>
    if u = 10 || u = 13 then lineAndColumn rest (line + 1) 1 else lineAndColumn rest line (column + 1)

/-- Whether a text is only the name of a number that JSON has no way to write. -/
def namesNumber (whole : Text) : Bool := whole = "NaN" || whole = "Infinity"

/-- How many units are shown on each side of a misplaced one. -/
def contextSize : Nat := 10

/-- The text around a position, with an ellipsis on each side where something is left out. A short
text is shown whole. -/
def context (whole : Text) (position : Nat) : Text :=
  let ellipsis : Text := "..."
  let quoted (shown : Text) : Text := Text.ofString "\"" ++ shown ++ "\""
  if whole.length ≤ 2 * contextSize then quoted whole
  else
    let first := position - contextSize
    let shown := (whole.drop first).take (position + contextSize - first)
    (if position < contextSize then [] else ellipsis) ++ quoted shown ++
      (if contextSize ≤ position && whole.length ≤ position + contextSize then [] else ellipsis)

namespace Failure

def position (whole : Text) (failure : Failure) : Nat := whole.length - failure.rest.length

/-- The position in units from 0, and the line and the column. -/
def placeText (whole : Text) (failure : Failure) : Text :=
  let position := failure.position whole
  let (line, column) := lineAndColumn (whole.take position) 1 1
  Text.ofString " at position " ++ Text.ofNat position ++ " (line " ++ Text.ofNat line ++ " column " ++
    Text.ofNat column ++ ")"

def message (whole : Text) (failure : Failure) : Text :=
  match failure.problem with
  | .textEnds => Problem.description .textEnds
  | .misplaced =>
    let shown := context whole (failure.position whole) ++ " is not valid JSON"
    if namesNumber whole then shown
    else Problem.description .misplaced ++ " " ++ Text.quoted (failure.rest.take 1) ++ ", " ++ shown
  | problem => problem.description ++ failure.placeText whole

end Failure

end Bytecode.Json
