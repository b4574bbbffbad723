import Bytecode.Text
/-!
# Numbers

Numbers of class files, literals and addresses are 64-bit binary floating-point values. They are kept
exact and each in one form, so that equal numbers are the same: an integer, a fraction
`(2 * m + 1) / 2^(k + 1)`, an infinity, or what is no number. Zero has no sign, since no answer shows
it. `Number.ofRatio` is the only way a value is rounded: to the nearest value with 53 significant
bits and no bit below 2^-1074, a tie going to the even neighbour, and to an infinity from 2^1024 on.
-/
namespace Bytecode

/-- A power of two. -/
def pow2 (k : Nat) : Nat := Nat.pow 2 k

/-- A power of ten. -/
def pow10 (k : Nat) : Nat := Nat.pow 10 k

/-- A 64-bit floating-point value. -/
inductive Number where
  | int (n : Int)
  /-- The odd multiple `2 * m + 1` of `1 / 2^(k + 1)`. -/
  | dyadic (m : Int) (k : Nat)
  | infinite (negative : Bool)
  | notANumber
deriving Repr, DecidableEq

namespace Number

/-! ## Rounding -/

/-- The natural number nearest to `num / den`, a tie going to the even one. -/
def roundDiv (num den : Nat) : Nat :=
  let q := num / den
  let r := num % den
  if den < 2 * r || (2 * r == den && q % 2 == 1) then q + 1 else q

/-- The exponent of the leading bit of `num / den`. -/
def leadingExponent (num den : Nat) : Int :=
  let k : Int := (Nat.log2 num : Int) - Nat.log2 den
  if den * pow2 k.toNat ≤ num * pow2 (-k).toNat then k else k - 1

/-- The number `m / 2^k`. -/
def halved : Nat → Int → Number
  | 0, m => int m
  | k + 1, m => if m % 2 = 0 then halved k (m / 2) else dyadic (m / 2) k

/-- The number `m * 2^e`. -/
def ofScaled (m e : Int) : Number :=
  if 0 ≤ e then int (m * pow2 e.toNat) else halved (-e).toNat m

/-- The number nearest to `num / den`. -/
def ofRatio (negative : Bool) (num den : Nat) : Number :=
  if num = 0 then int 0
  else
    let e := max (leadingExponent num den - 52) (-1074)
    let m := roundDiv (num * pow2 (-e).toNat) (den * pow2 e.toNat)
    let (m, e) := if m = pow2 53 then (pow2 52, e + 1) else (m, e)
    if 971 < e then infinite negative
    else ofScaled (if negative then -m else m) e

/-- The number nearest to the quotient of an integer by a positive one. -/
def ofQuotient (num : Int) (den : Nat) : Number := ofRatio (num < 0) num.natAbs den

/-- The number nearest to an integer: the integer itself up to 2^53. -/
def ofInt (n : Int) : Number := if n.natAbs ≤ pow2 53 then int n else ofQuotient n 1

/-- The number nearest to `digits * 10^exponent`. The two bounds only spare huge powers: what lies
beyond them is an infinity or zero. -/
def ofDecimal (negative : Bool) (digits : Nat) (exponent : Int) : Number :=
  let magnitude := (Text.ofNat digits).length + exponent
  if digits = 0 || magnitude < -400 then int 0
  else if 400 < magnitude then infinite negative
  else ofRatio negative (digits * pow10 exponent.toNat) (pow10 (-exponent).toNat)

/-! ## Parts -/

/-- The numerator of a finite number in lowest terms. -/
def numerator : Number → Int
  | int n => n
  | dyadic m _ => 2 * m + 1
  | _ => 0

/-- The denominator of a finite number in lowest terms. -/
def denominator : Number → Nat
  | dyadic _ k => pow2 (k + 1)
  | _ => 1

def isZero (x : Number) : Bool := x = int 0

/-- The integer that a number is, if it is one. -/
def toInt? : Number → Option Int
  | int n => some n
  | _ => none

/-- The integer part, toward zero. What is not finite has the integer part 0. -/
def truncate : Number → Int
  | int n => n
  | x => x.numerator.tdiv x.denominator

/-- The integer that is left of an integer kept as a number: sums up to 2^53 are exact, others are
rounded to 53 bits. -/
def nearestInt (n : Int) : Int := (ofInt n).truncate

/-- How many natural numbers are smaller. No finite number reaches 2^1024, which stands for all. -/
def countBelow : Number → Nat
  | int n => n.toNat
  | dyadic m k => if 0 ≤ m then (2 * m + 1).toNat / pow2 (k + 1) + 1 else 0
  | infinite negative => if negative then 0 else pow2 1024
  | notANumber => 0

/-! ## Sums and order -/

def add : Number → Number → Number
  | int a, int b => ofInt (a + b)
  | notANumber, _ | _, notANumber => notANumber
  | infinite a, infinite b => if a = b then infinite a else notANumber
  | infinite a, _ | _, infinite a => infinite a
  | x, y =>
    ofQuotient (x.numerator * y.denominator + y.numerator * x.denominator)
      (x.denominator * y.denominator)

/-- Whether the first number is smaller. What is no number is neither smaller nor larger. -/
def lt : Number → Number → Bool
  | int a, int b => a < b
  | notANumber, _ | _, notANumber => false
  | infinite a, infinite b => a && !b
  | infinite a, _ => a
  | _, infinite b => !b
  | x, y => x.numerator * y.denominator < y.numerator * x.denominator

/-- Whether two numbers are equal. What is no number is not even equal to itself. -/
def same (x y : Number) : Bool := x ≠ notANumber && x = y

theorem ofInt_of_natAbs_le {n : Int} (h : n.natAbs ≤ pow2 53) : ofInt n = int n := by
  simp [ofInt, h]

theorem nearestInt_of_natAbs_le {n : Int} (h : n.natAbs ≤ pow2 53) : nearestInt n = n := by
  simp [nearestInt, ofInt_of_natAbs_le h, truncate]

@[simp] theorem int_lt_int (a b : Int) : lt (int a) (int b) = decide (a < b) := rfl

theorem same_iff {x y : Number} : x.same y = true ↔ x = y ∧ x ≠ notANumber := by
  simp [same, and_comm]

@[simp] theorem int_same (n : Int) (y : Number) : (int n).same y = decide (int n = y) := by
  simp [same]

end Number

end Bytecode
