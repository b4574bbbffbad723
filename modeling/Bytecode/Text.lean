/-!
# Text as code units

A `char` of the machine is one 16-bit unit, and argument literals and descriptors are read unit by
unit, so text is a list of units. A unit may be one half of a surrogate pair, with or without the
other half beside it. `Text.ofString` encodes Unicode text; `Text.toString` decodes it again and
writes U+FFFD for every half that stands alone.
-/
namespace Bytecode

/-- One 16-bit unit of text. -/
abbrev CodeUnit := UInt16

/-- A sequence of code units. -/
abbrev Text := List CodeUnit

/-- The unit of a character below U+10000. -/
def CodeUnit.ofChar (c : Char) : CodeUnit := UInt16.ofNat c.toNat

instance : Coe Char CodeUnit := ⟨CodeUnit.ofChar⟩

/-- The first half of a surrogate pair. -/
def CodeUnit.isLeading (u : CodeUnit) : Bool := 0xD800 ≤ u && u < 0xDC00

/-- The second half of a surrogate pair. -/
def CodeUnit.isTrailing (u : CodeUnit) : Bool := 0xDC00 ≤ u && u < 0xE000

def CodeUnit.isDigit (u : CodeUnit) : Bool := 48 ≤ u && u ≤ 57

/-- The digit that an ASCII digit stands for. -/
def CodeUnit.digit (u : CodeUnit) : Nat := u.toNat - 48

/-- One unit for a character below U+10000, a surrogate pair for any other. -/
def unitsOfChar (c : Char) : List CodeUnit :=
  if c.toNat < 0x10000 then [CodeUnit.ofChar c]
  else
    [UInt16.ofNat (0xD800 + (c.toNat - 0x10000) / 0x400),
      UInt16.ofNat (0xDC00 + (c.toNat - 0x10000) % 0x400)]

namespace Text

def ofString (s : String) : Text := s.toList.flatMap unitsOfChar

instance : Coe String Text := ⟨ofString⟩

/-- The characters of a text; a half of a pair that stands alone becomes U+FFFD. -/
def chars : Text → List Char
  | [] => []
  | [u] => [if u.isLeading || u.isTrailing then '\uFFFD' else Char.ofNat u.toNat]
  | u :: v :: rest =>
    if u.isLeading && v.isTrailing then
      Char.ofNat (0x10000 + (u.toNat - 0xD800) * 0x400 + (v.toNat - 0xDC00)) :: chars rest
    else if u.isLeading || u.isTrailing then '\uFFFD' :: chars (v :: rest)
    else Char.ofNat u.toNat :: chars (v :: rest)

def toString (t : Text) : String := String.ofList t.chars

/-- The decimal digits of a natural number, without leading zeros. -/
def ofNat (n : Nat) : Text :=
  if n < 10 then [UInt16.ofNat (48 + n)] else ofNat (n / 10) ++ [UInt16.ofNat (48 + n % 10)]

/-- Decimal digits, after a minus sign for a negative number. -/
def ofInt (n : Int) : Text :=
  if n < 0 then CodeUnit.ofChar '-' :: ofNat n.natAbs else ofNat n.natAbs

/-- The number that a run of decimal digits stands for. -/
def digitsValue (t : Text) : Nat := t.foldl (fun n u => n * 10 + u.digit) 0

/-- What stands before and after the first `sep`. -/
def cutFirst (sep : CodeUnit) : Text → Option (Text × Text)
  | [] => none
  | u :: rest =>
    if u = sep then some ([], rest)
    else (cutFirst sep rest).map fun (before, after) => (u :: before, after)

/-- What stands before and after the last `sep`. -/
def cutLast (sep : CodeUnit) : Text → Option (Text × Text)
  | [] => none
  | u :: rest =>
    match cutLast sep rest with
    | some (before, after) => some (u :: before, after)
    | none => if u = sep then some ([], rest) else none

/-- The pieces between the separators; there is always one more piece than separators. -/
def split (sep : CodeUnit) : Text → List Text
  | [] => [[]]
  | u :: rest =>
    if u = sep then [] :: split sep rest
    else match split sep rest with
      | [] => [[u]]
      | piece :: pieces => (u :: piece) :: pieces

/-- The pieces with `sep` between each two neighbours. -/
def join (sep : Text) (pieces : List Text) : Text := sep.intercalate pieces

/-- What follows `lead`, if the text starts with it. -/
def dropLead? (lead : Text) (t : Text) : Option Text :=
  if lead.isPrefixOf t then some (t.drop lead.length) else none

/-- The text between single quotes. -/
def quoted (t : Text) : Text := ofString "'" ++ t ++ "'"

/-- The text with enough copies of `u` in front to be `width` units long. -/
def padLeft (width : Nat) (u : CodeUnit) (t : Text) : Text :=
  List.replicate (width - t.length) u ++ t

end Text

end Bytecode
