import Bytecode.Number
import Bytecode.Text.Blank
/-!
# Number literals

`Number.ofText` gives the number that a whole text stands for where text is allowed in place of a
number: surrounded by blanks, empty for zero, hexadecimal, octal or binary without a sign, or decimal.
-/
namespace Bytecode.Number

/-- The digits at the front and what follows them. -/
def spanDigits (t : Text) : Text × Text := t.span CodeUnit.isDigit

/-- An optional sign at the front: whether it is a minus, and what follows. -/
def readSign : Text → Bool × Text
  | [] => (false, [])
  | u :: rest => if u = '-' then (true, rest) else if u = '+' then (false, rest) else (false, u :: rest)

/-- The exponent at the front, if one stands there complete; else 0 and the text as it is. -/
def readExponent (t : Text) : Int × Text :=
  match t with
  | [] => (0, [])
  | u :: rest =>
    if u = 'e' || u = 'E' then
      let (negative, afterSign) := readSign rest
      let (digits, after) := spanDigits afterSign
      if digits.isEmpty then (0, t)
      else
        let n : Int := Text.digitsValue digits
        (if negative then -n else n, after)
    else (0, t)

/-- The digits after a point at the front; `none` if there is no point. -/
def readFraction : Text → Option (Text × Text)
  | [] => none
  | u :: rest => if u = '.' then some (spanDigits rest) else none

/-- The number written as whole digits, fraction digits and an exponent. -/
def ofParts (negative : Bool) (whole fraction : Text) (exponent : Int) : Number :=
  ofDecimal negative (Text.digitsValue (whole ++ fraction)) (exponent - fraction.length)

/-- The value of a digit in a base up to 16, letters of either case. -/
def digitIn (base : Nat) (u : CodeUnit) : Option Nat :=
  let n := u.toNat
  let value := if u.isDigit then n - 48 else if 97 ≤ n && n ≤ 102 then n - 87
    else if 65 ≤ n && n ≤ 70 then n - 55 else base
  if value < base then some value else none

/-- A natural number written in a base, with at least one digit. -/
def readBase (base : Nat) (t : Text) : Number :=
  match t.mapM (digitIn base) with
  | none | some [] => notANumber
  | some digits => ofRatio false (digits.foldl (fun n d => n * base + d) 0) 1

/-- A decimal literal or `Infinity`, after an optional sign; a point needs a digit on one side. -/
def readDecimal (t : Text) : Number :=
  let (negative, unsigned) := readSign t
  if unsigned = "Infinity" then infinite negative
  else
    let (whole, afterWhole) := spanDigits unsigned
    let (fraction, afterFraction) := (readFraction afterWhole).getD ([], afterWhole)
    let (exponent, after) := readExponent afterFraction
    if (whole ++ fraction).isEmpty || !after.isEmpty then notANumber
    else ofParts negative whole fraction exponent

/-- The number that a text stands for. -/
def ofText (t : Text) : Number :=
  match t.trim with
  | [] => int 0
  | a :: b :: rest =>
    if a = '0' && (b = 'x' || b = 'X') then readBase 16 rest
    else if a = '0' && (b = 'o' || b = 'O') then readBase 8 rest
    else if a = '0' && (b = 'b' || b = 'B') then readBase 2 rest
    else readDecimal (a :: b :: rest)
  | t => readDecimal t

end Bytecode.Number
