import Bytecode.Json
import Bytecode.Json.Problem
import Bytecode.Number.Literal
/-!
# Reading JSON

`Json.read` accepts exactly one value, strictly: blanks are the space, tab, line feed and carriage
return, strings hold no control characters, and nothing follows the value but blanks. What is no JSON
is refused with the first problem.
-/
namespace Bytecode.Json

/-- JSON's own blanks. -/
def isGap (u : CodeUnit) : Bool := u == 32 || u == 9 || u == 10 || u == 13

def skipGap (t : Text) : Text := t.dropWhile isGap

def fail {α : Type} (problem : Problem) (rest : Text) : Except Failure α := .error ⟨problem, rest⟩

/-- Refuses what stands at the front, by what it looks like. -/
def misplacedAt {α : Type} : Text → Except Failure α
  | [] => fail .textEnds []
  | u :: rest =>
    if u.isDigit || u = '-' then fail .misplacedNumber (u :: rest)
    else if u = '"' then fail .misplacedString (u :: rest)
    else fail .misplaced (u :: rest)

/-! ## Strings and words -/

/-- The unit that four hexadecimal digits spell. -/
def hexUnit (a b c d : CodeUnit) : Option CodeUnit := do
  let a ← Number.digitIn 16 a
  let b ← Number.digitIn 16 b
  let c ← Number.digitIn 16 c
  let d ← Number.digitIn 16 d
  some (UInt16.ofNat (((a * 16 + b) * 16 + c) * 16 + d))

/-- The unit that a letter after a backslash stands for. -/
def escapedUnit (u : CodeUnit) : Option CodeUnit :=
  if u = '"' || u = '\\' || u = '/' then some u
  else if u = 'b' then some 8
  else if u = 'f' then some 12
  else if u = 'n' then some 10
  else if u = 'r' then some 13
  else if u = 't' then some 9
  else none

/-- Refuses a numbered escape at the first unit that is no hexadecimal digit. -/
def badUnicode {α : Type} (t : Text) : Except Failure α :=
  fail .badUnicodeEscape (t.dropWhile fun u => (Number.digitIn 16 u).isSome)

/-- The rest of a string after its opening quote, and what follows the closing one. -/
def readString : Text → Except Failure (Text × Text)
  | [] => fail .unterminatedString []
  | 0x22 :: rest => .ok ([], rest)
  | 0x5C :: 0x75 :: a :: b :: c :: d :: rest =>
    match hexUnit a b c d with
    | none => badUnicode (a :: b :: c :: d :: rest)
    | some u => do
      let (more, after) ← readString rest
      .ok (u :: more, after)
  | [0x5C] => fail .unterminatedString []
  | 0x5C :: e :: rest =>
    match escapedUnit e with
    | none => if e = 'u' then badUnicode rest else fail .badEscape (e :: rest)
    | some u => do
      let (more, after) ← readString rest
      .ok (u :: more, after)
  | u :: rest =>
    if u < 32 then fail .controlCharacter (u :: rest)
    else do
      let (more, after) ← readString rest
      .ok (u :: more, after)

/-- What follows a word at the front. -/
def readWord : Text → Text → Except Failure Text
  | [], t => .ok t
  | _ :: _, [] => fail .textEnds []
  | w :: word, u :: rest => if u = w then readWord word rest else misplacedAt (u :: rest)

/-! ## Numbers -/

/-- The digits before a point: a zero is followed by no digit. -/
def readWhole : Text → Except Failure (Text × Text)
  | [] => fail .minusWithoutDigits []
  | u :: rest =>
    if u = '0' then
      if (rest.head?.map CodeUnit.isDigit).getD false then fail .misplacedNumber rest
      else .ok ([u], rest)
    else if u.isDigit then .ok (Number.spanDigits (u :: rest))
    else fail .minusWithoutDigits (u :: rest)

/-- The digits after a point, none if there is no point. -/
def readFraction (t : Text) : Except Failure (Text × Text) :=
  match Number.readFraction t with
  | none => .ok ([], t)
  | some (digits, after) =>
    if digits.isEmpty then fail .pointWithoutDigits after else .ok (digits, after)

/-- The exponent, 0 if there is none. -/
def readExponent : Text → Except Failure (Int × Text)
  | [] => .ok (0, [])
  | u :: rest =>
    if u = 'e' || u = 'E' then
      let (negative, afterSign) := Number.readSign rest
      let (digits, after) := Number.spanDigits afterSign
      if digits.isEmpty then fail .exponentWithoutDigits after
      else
        let n : Int := Text.digitsValue digits
        .ok (if negative then -n else n, after)
    else .ok (0, u :: rest)

/-- The number at the front: no plus sign, no leading zero, and digits on each side of a point. -/
def readNumber (t : Text) : Except Failure (Number × Text) := do
  let (negative, unsigned) := match t with
    | [] => (false, [])
    | u :: rest => if u = '-' then (true, rest) else (false, u :: rest)
  let (whole, afterWhole) ← readWhole unsigned
  let (fraction, afterFraction) ← readFraction afterWhole
  let (exponent, after) ← readExponent afterFraction
  .ok (.ofParts negative whole fraction exponent, after)

/-! ## Values -/

/-- The name at the front of a member and what follows its colon; `problem` is that of a name that
is missing. -/
def readName (problem : Problem) (t : Text) : Except Failure (Text × Text) :=
  match skipGap t with
  | [] => fail problem []
  | u :: rest =>
    if u = '"' then do
      let (name, after) ← readString rest
      match skipGap after with
      | [] => fail .colonExpected []
      | v :: after => if v = ':' then .ok (name, after) else fail .colonExpected (v :: after)
    else fail problem (u :: rest)

/-- Whether the unit that closes a list stands at the front, and what follows it. -/
def closed? (close : CodeUnit) (t : Text) : Option Text :=
  match skipGap t with
  | [] => none
  | u :: rest => if u = close then some rest else none

mutual

/-- The value at the front and what follows it. The bound counts nested calls. -/
def readValue : Nat → Text → Except Failure (Json × Text)
  | 0, t => fail .misplaced t
  | bound + 1, t =>
    match skipGap t with
    | [] => misplacedAt []
    | u :: rest =>
      if u = '{' then
        match closed? '}' rest with
        | some after => .ok (object [], after)
        | none => do
          let (members, after) ← readMembers .nameOrBraceExpected bound rest
          .ok (ofMembers members, after)
      else if u = '[' then
        match closed? ']' rest with
        | some after => .ok (array [], after)
        | none => do
          let (items, after) ← readItems bound rest
          .ok (array items, after)
      else if u = '"' then do
        let (t, after) ← readString rest
        .ok (string t, after)
      else if u = 't' then do .ok (bool true, ← readWord "true" (u :: rest))
      else if u = 'f' then do .ok (bool false, ← readWord "false" (u :: rest))
      else if u = 'n' then do .ok (null, ← readWord "null" (u :: rest))
      else if u.isDigit || u = '-' then do
        let (n, after) ← readNumber (u :: rest)
        .ok (number n, after)
      else misplacedAt (u :: rest)

/-- The items of an array up to its closing bracket. -/
def readItems : Nat → Text → Except Failure (List Json × Text)
  | 0, t => fail .misplaced t
  | bound + 1, t => do
    let (item, after) ← readValue bound t
    match skipGap after with
    | [] => fail .commaOrBracketExpected []
    | u :: after =>
      if u = ',' then do
        let (items, after) ← readItems bound after
        .ok (item :: items, after)
      else if u = ']' then .ok ([item], after)
      else fail .commaOrBracketExpected (u :: after)

/-- The members of an object up to its closing brace. -/
def readMembers (problem : Problem) : Nat → Text → Except Failure (List (Text × Json) × Text)
  | 0, t => fail .misplaced t
  | bound + 1, t => do
    let (name, after) ← readName problem t
    let (value, after) ← readValue bound after
    match skipGap after with
    | [] => fail .commaOrBraceExpected []
    | u :: after =>
      if u = ',' then do
        let (members, after) ← readMembers .nameExpected bound after
        .ok ((name, value) :: members, after)
      else if u = '}' then .ok ([(name, value)], after)
      else fail .commaOrBraceExpected (u :: after)

end

/-- The value that a whole text stands for. Every two nested calls use up a unit of the text, which
bounds them. -/
def read (t : Text) : Except Failure Json := do
  let (value, after) ← readValue (2 * t.length + 2) t
  let rest := skipGap after
  if rest.isEmpty then .ok value else fail .textAfterValue rest

end Bytecode.Json
