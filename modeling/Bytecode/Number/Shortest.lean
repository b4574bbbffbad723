import Bytecode.Number
/-!
# Shortest decimal text

A number is written with the fewest decimal digits that read back as it, and of those with the
digits nearest to it. Decimal exponents from -7 up to 20 are written positionally, all others
with a signed exponent.
-/
namespace Bytecode

/-- A decimal value `digits * 10^exponent`. -/
structure Decimal where
  digits : Nat
  exponent : Int
deriving Repr, DecidableEq

namespace Number

/-- Compares `a * 10^i` with `n * 2^j`, exactly. -/
def compareScaled (a : Nat) (i : Int) (n : Nat) (j : Int) : Ordering :=
  compare (a * pow10 i.toNat * pow2 (-j).toNat) (n * pow2 j.toNat * pow10 (-i).toNat)

/-- Whether a decimal lies among the reals that round to `m * 2^e`: those between the halfway points
to its two neighbours, ends included exactly when `m` is even. Just above a power of two the lower
neighbour is half as far away. -/
def readsBack (m : Nat) (e : Int) (d : Decimal) : Bool :=
  let low := if m = pow2 52 && -1074 < e then 4 * m - 1 else 4 * m - 2
  let high := 4 * m + 2
  let atLow := compareScaled d.digits d.exponent low (e - 2)
  let atHigh := compareScaled d.digits d.exponent high (e - 2)
  let ends := m % 2 == 0
  (atLow == .gt || (ends && atLow == .eq)) && (atHigh == .lt || (ends && atHigh == .eq))

/-- The least `k` with `m * 2^e < 10^k`, for positive `m`: an estimate from the binary exponent,
which is at most one too small or too large, corrected by exact comparison. -/
def decimalScale (m : Nat) (e : Int) : Int :=
  let estimate := ((Nat.log2 m + e) * 30103).fdiv 100000
  let below (k : Int) : Bool := compareScaled 1 k m e == .gt
  if below (estimate - 1) then estimate - 1
  else if below estimate then estimate
  else if below (estimate + 1) then estimate + 1
  else estimate + 2

/-- The candidate on the grid of step `10^exponent`: of the two neighbours of `m * 2^e` the one that
reads back, and of two such the nearer, a tie going to the even one. -/
def onGrid (m : Nat) (e exponent : Int) : Option Decimal :=
  let num := m * pow2 e.toNat * pow10 (-exponent).toNat
  let den := pow2 (-e).toNat * pow10 exponent.toNat
  let down : Decimal := ⟨num / den, exponent⟩
  let up : Decimal := ⟨num / den + 1, exponent⟩
  let downFits := down.digits ≠ 0 && readsBack m e down
  let upFits := readsBack m e up
  if downFits && upFits then
    some (if roundDiv num den = down.digits then down else up)
  else if downFits then some down
  else if upFits then some up
  else none

/-- The shortest decimal that reads back as `m * 2^e`, for positive `m`; seventeen digits always do. -/
def shortest (m : Nat) (e : Int) : Decimal :=
  let scale := decimalScale m e
  let grids := (List.range 17).map fun (n : Nat) => onGrid m e (scale - (n + 1))
  (grids.findSome? id).getD ⟨m * pow2 e.toNat * Nat.pow 5 (-e).toNat, -(-e).toNat⟩

/-- Positional for the decimal exponents from -7 to 20, with a signed exponent otherwise. -/
def layout (d : Decimal) : Text :=
  let digits := (Text.ofNat d.digits).reverse.dropWhile (· = 48) |>.reverse
  let count : Int := digits.length
  let point : Int := (Text.ofNat d.digits).length + d.exponent
  if count ≤ point && point ≤ 21 then
    digits ++ List.replicate (point - count).toNat 48
  else if 0 < point && point ≤ 21 then
    digits.take point.toNat ++ (CodeUnit.ofChar '.' :: digits.drop point.toNat)
  else if -6 < point && point ≤ 0 then
    Text.ofString "0." ++ List.replicate (-point).toNat 48 ++ digits
  else
    let sign : Text := if point - 1 < 0 then "-" else "+"
    let fraction := digits.drop 1
    digits.take 1 ++ (if fraction.isEmpty then [] else CodeUnit.ofChar '.' :: fraction) ++ "e" ++ sign ++
      Text.ofNat (point - 1).natAbs

/-- A positive value `m * 2^e` with 53 significant bits, or fewer if its last bit is the last one
there is. -/
def normal (m : Nat) (e : Int) : Nat × Int :=
  let last := max (Nat.log2 m + e - 52) (-1074)
  (m * pow2 (e - last).toNat / pow2 (last - e).toNat, last)

/-- The value `m * 2^e` as it is written, after a minus sign if it is negative. -/
def scaledText (m e : Int) : Text :=
  let (bits, last) := normal m.natAbs e
  let written := layout (shortest bits last)
  if m < 0 then CodeUnit.ofChar '-' :: written else written

def text : Number → Text
  | int n => if n.natAbs ≤ pow2 53 then Text.ofInt n else scaledText n 0
  | dyadic m k => scaledText (2 * m + 1) (-(k + 1))
  | infinite negative => if negative then "-Infinity" else "Infinity"
  | notANumber => "NaN"

/-- An integer as the number that it is. -/
def intText (n : Int) : Text := (int n).text

end Number

end Bytecode
