import Bytecode.Json
import Bytecode.Number.Shortest
/-!
# Writing JSON

`Json.text` writes a value without blanks. In strings the quote, the backslash and the control
characters are escaped, and each half of a surrogate pair that stands alone; numbers that are not
finite are written as `null`. `Json.describe` is the form in which messages quote a value that may
be missing.
-/
namespace Bytecode.Json

/-- A hexadecimal digit, letters in lower case. -/
def hexDigit (n : Nat) : CodeUnit := UInt16.ofNat (if n < 10 then 48 + n else 87 + n)

/-- `\uXXXX` for a unit. -/
def unicodeEscape (u : CodeUnit) : Text :=
  let n := u.toNat
  [0x5C, 0x75, hexDigit (n / 4096), hexDigit (n / 256 % 16), hexDigit (n / 16 % 16), hexDigit (n % 16)]

/-- A unit inside a string, wherever it stands. -/
def escapeUnit (u : CodeUnit) : Text :=
  if u = '"' || u = '\\' then [0x5C, u]
  else if u = 8 then "\\b"
  else if u = 9 then "\\t"
  else if u = 10 then "\\n"
  else if u = 12 then "\\f"
  else if u = 13 then "\\r"
  else if u < 32 || u.isLeading || u.isTrailing then unicodeEscape u
  else [u]

/-- The inside of a string: surrogate pairs stay as they are. -/
def escape : Text → Text
  | [] => []
  | [u] => escapeUnit u
  | u :: v :: rest =>
    if u.isLeading && v.isTrailing then u :: v :: escape rest
    else escapeUnit u ++ escape (v :: rest)

def quote (t : Text) : Text := Text.ofString "\"" ++ escape t ++ "\""

mutual

def text : Json → Text
  | null => "null"
  | bool b => if b then "true" else "false"
  | number n => match n with
    | .int _ | .dyadic .. => n.text
    | _ => "null"
  | string t => quote t
  | array items => Text.ofString "[" ++ itemsText items ++ "]"
  | object members => Text.ofString "\x7b" ++ membersText members ++ "\x7d"

/-- The items with commas between them. -/
def itemsText : List Json → Text
  | [] => []
  | [item] => item.text
  | item :: items => item.text ++ "," ++ itemsText items

/-- The members with commas between them. -/
def membersText : List (Text × Json) → Text
  | [] => []
  | [(name, value)] => quote name ++ ":" ++ value.text
  | (name, value) :: members => quote name ++ ":" ++ value.text ++ "," ++ membersText members

end

/-- A value as messages quote it. -/
def describe : Option Json → Text
  | none => "undefined"
  | some value => value.text

end Bytecode.Json
