import Bytecode.Arithmetic
import Mathlib.Algebra.Group.Int.Defs
import Mathlib.Algebra.Group.Nat.Defs
/-!
# Arithmetic on words

`Operator.apply` computes on unbounded integers and divides in floating point. For
integers of 32 bits it gives what the operations on 32-bit words give
(`Operator.computes_on_words`). That a quotient is rounded before its fraction is
dropped does not show (`Number.truncate_quotient`): what lies below an integer lies
below it by a part of the divisor at least, and the grid that a quotient is rounded
to is finer than that.
-/
namespace Bytecode

namespace Number

/-! ## Rounded quotients -/

/-- A quotient is rounded up only if its remainder is at least half of the divisor. -/
theorem roundDiv_cases (num den : Nat) :
    roundDiv num den = num / den ∨ roundDiv num den = num / den + 1 ∧ den ≤ 2 * (num % den) := by
  unfold roundDiv
  simp only []
  split
  · rename_i hup
    simp only [Bool.or_eq_true, Bool.and_eq_true, decide_eq_true_eq, beq_iff_eq] at hup
    omega
  · exact .inl rfl

/-- On a grid that is finer than half a part of the divisor, rounding keeps the integer part. -/
theorem roundDiv_div {num den k : Nat} (hpos : 0 < den) (h : den < 2 ^ (k + 1)) :
    roundDiv (num * 2 ^ k) den / 2 ^ k = num / den := by
  have hdouble : 2 ^ (k + 1) = 2 * 2 ^ k := Nat.pow_succ'
  have hsplit := Nat.div_add_mod (num * 2 ^ k) den
  have hfit := Nat.mod_lt (num * 2 ^ k) hpos
  have hlow : num / den * 2 ^ k ≤ num * 2 ^ k / den := by
    rw [Nat.le_div_iff_mul_le hpos, Nat.mul_right_comm]
    exact Nat.mul_le_mul_right _ (Nat.div_mul_le_self num den)
  -- The next integer is at least one part of the divisor away.
  have hhigh : num * 2 ^ k + 2 ^ k ≤ den * ((num / den + 1) * 2 ^ k) := by
    have hnext : num + 1 ≤ den * (num / den + 1) := Nat.lt_mul_div_succ num hpos
    calc num * 2 ^ k + 2 ^ k = (num + 1) * 2 ^ k := (Nat.succ_mul ..).symm
      _ ≤ den * (num / den + 1) * 2 ^ k := Nat.mul_le_mul_right _ hnext
      _ = den * ((num / den + 1) * 2 ^ k) := Nat.mul_assoc ..
  rcases roundDiv_cases (num * 2 ^ k) den with hround | ⟨hround, hhalf⟩ <;> rw [hround]
  · refine Nat.div_eq_of_lt_le hlow (Nat.lt_of_mul_lt_mul_left (a := den) ?_)
    omega
  · refine Nat.div_eq_of_lt_le (Nat.le_succ_of_le hlow) (Nat.lt_of_mul_lt_mul_left (a := den) ?_)
    rw [Nat.mul_succ]
    omega

theorem leadingExponent_bounds (num den : Nat) :
    (num.log2 : Int) - den.log2 - 1 ≤ leadingExponent num den ∧ leadingExponent num den ≤ num.log2 - den.log2 := by
  unfold leadingExponent
  simp only []
  split <;> omega

/-- The integer part of `m / 2^k`. -/
theorem truncate_halved (k : Nat) (m : Int) : (halved k m).truncate = m.tdiv (2 ^ k) := by
  induction k generalizing m with
  | zero => simp [halved, truncate]
  | succ k ih =>
    have hsplit := Int.mul_ediv_add_emod m 2
    rw [halved]
    split
    · rename_i heven
      rw [heven, Int.add_zero] at hsplit
      rw [ih, Int.pow_succ', ← Int.mul_tdiv_mul_of_pos (m / 2) (2 ^ k) (by decide : (0 : Int) < 2), hsplit]
    · have hodd : 2 * (m / 2) + 1 = m := by omega
      simp [truncate, numerator, denominator, pow2, hodd]

/-- A natural number with a sign. -/
def withSign (negative : Bool) (n : Nat) : Int := if negative then -n else n

theorem truncate_ofScaled (negative : Bool) (m k : Nat) :
    (ofScaled (withSign negative m) (-k)).truncate = withSign negative (m / 2 ^ k) := by
  have hscaled : ∀ n : Int, (ofScaled n (-k)).truncate = n.tdiv (2 ^ k) := by
    intro n
    unfold ofScaled
    split
    · obtain rfl : k = 0 := by omega
      simp [truncate, pow2]
    · rw [truncate_halved]
      simp
  rw [hscaled]
  cases negative <;> simp [withSign, Int.tdiv_eq_ediv_of_nonneg]

/-- The quotient of natural numbers of at most 52 bits keeps its integer part. -/
theorem truncate_ofRatio (negative : Bool) {num den : Nat} (hnum : num < 2 ^ 52) (hden : den < 2 ^ 52)
    (hpos : 0 < den) : (ofRatio negative num den).truncate = withSign negative (num / den) := by
  unfold ofRatio
  split
  · rename_i hzero
    simp [hzero, truncate, withSign]
  · rename_i hne
    obtain ⟨hlow, hhigh⟩ := leadingExponent_bounds num den
    have hlognum : num.log2 < 52 := (Nat.log2_lt hne).2 hnum
    have hlogden : den.log2 < 52 := (Nat.log2_lt (Nat.ne_of_gt hpos)).2 hden
    -- There is room for at least one bit behind the point, and for more of them the larger the divisor is.
    obtain ⟨k, hk⟩ : ∃ k : Nat, max (leadingExponent num den - 52) (-1074) = -((k + 1 : Nat) : Int) :=
      ⟨(51 - leadingExponent num den).toNat, by omega⟩
    have hfine : den < 2 ^ (k + 1 + 1) := by
      refine Nat.lt_of_lt_of_le Nat.lt_log2_self (Nat.pow_le_pow_right Nat.two_pos ?_)
      omega
    have hround : roundDiv (num * pow2 (- -((k + 1 : Nat) : Int)).toNat) (den * pow2 (-((k + 1 : Nat) : Int)).toNat) =
        roundDiv (num * 2 ^ (k + 1)) den := by
      have hup : (- -((k + 1 : Nat) : Int)).toNat = k + 1 := by omega
      have hdown : (-((k + 1 : Nat) : Int)).toNat = 0 := by omega
      rw [hup, hdown]
      simp [pow2]
    simp only [hk, hround]
    rw [← roundDiv_div hpos hfine]
    generalize roundDiv (num * 2 ^ (k + 1)) den = m
    by_cases hcarry : m = pow2 53
    · -- Rounding up took one bit more than there is room for, so the grid is half as fine.
      have hgrid : -((k + 1 : Nat) : Int) + 1 = -(k : Nat) := by omega
      have hsmall : ¬(971 : Int) < -(k : Nat) := by omega
      have hhalf : pow2 53 / 2 ^ (k + 1) = pow2 52 / 2 ^ k := by
        rw [Nat.pow_succ', ← Nat.div_div_eq_div_mul]
        rfl
      simp only [if_pos hcarry, hgrid, if_neg hsmall]
      rw [hcarry, hhalf]
      exact truncate_ofScaled negative (pow2 52) k
    · have hsmall : ¬(971 : Int) < -((k + 1 : Nat) : Int) := by omega
      simp only [if_neg hcarry, if_neg hsmall]
      exact truncate_ofScaled negative m (k + 1)

theorem withSign_natAbs_div (n : Int) (d : Nat) : withSign (n < 0) (n.natAbs / d) = n.tdiv d := by
  by_cases h : n < 0
  · have habs : (n.natAbs : Int) = -n := Int.ofNat_natAbs_of_nonpos (Int.le_of_lt h)
    have hquotient : ((n.natAbs / d : Nat) : Int) = (-n).tdiv d := by
      rw [← habs]
      rfl
    rw [decide_eq_true h, withSign, if_pos rfl, hquotient, Int.neg_tdiv, Int.neg_neg]
  · have habs : (n.natAbs : Int) = n := Int.natAbs_of_nonneg (Int.not_lt.1 h)
    rw [decide_eq_false h, withSign, if_neg Bool.false_ne_true]
    calc ((n.natAbs / d : Nat) : Int) = (n.natAbs : Int).tdiv d := rfl
      _ = n.tdiv d := by rw [habs]

/-- Rounding an integer's quotient by another one before its fraction is dropped changes nothing. -/
theorem truncate_quotient {a b : Int} (ha : a.natAbs < 2 ^ 52) (hb : b.natAbs < 2 ^ 52) (hne : b ≠ 0) :
    (quotient a b).truncate = a.tdiv b := by
  have habs : (a * b.sign).natAbs = a.natAbs := by
    rw [Int.natAbs_mul, Int.natAbs_sign_of_ne_zero hne, Nat.mul_one]
  have hsign : (a * b.sign).tdiv b.natAbs = a.tdiv b := by
    rcases Int.lt_or_gt_of_ne hne with hneg | hpos
    · rw [Int.sign_eq_neg_one_of_neg hneg, Int.ofNat_natAbs_of_nonpos (Int.le_of_lt hneg), Int.mul_neg, Int.mul_one,
        Int.tdiv_neg, Int.neg_tdiv, Int.neg_neg]
    · rw [Int.sign_eq_one_of_pos hpos, Int.natAbs_of_nonneg (Int.le_of_lt hpos), Int.mul_one]
  unfold quotient ofQuotient
  rw [truncate_ofRatio _ (habs ▸ ha) hb (Int.natAbs_pos.2 hne), withSign_natAbs_div, hsign]

end Number

/-! ## Words as integers -/

namespace Word

variable (x y : BitVec 32)

theorem natAbs_toInt_le : x.toInt.natAbs ≤ 2147483648 := by
  have hlow := BitVec.le_toInt x
  have hhigh := BitVec.toInt_lt (x := x)
  omega

theorem toInt_eq_zero_iff : x.toInt = 0 ↔ x = 0 := BitVec.toInt_inj (y := 0)

theorem bits_toInt : bits x.toInt = x.toNat := by
  change (x.toInt % (2 ^ 32 : Nat)).toNat = x.toNat
  rw [← BitVec.toNat_ofInt, BitVec.ofInt_toInt]

theorem signed_toNat : signed 32 x.toNat = x.toInt := (BitVec.toInt_eq_toNat_bmod x).symm

theorem signed_toInt : signed 32 x.toInt = x.toInt := by
  change x.toInt.bmod (2 ^ 32) = x.toInt
  rw [← BitVec.toInt_ofInt, BitVec.ofInt_toInt]

/-- Sums and differences of words are small enough to be exact. -/
theorem nearestInt_toInt {n : Int} (h : n.natAbs ≤ x.toInt.natAbs + y.toInt.natAbs) : Number.nearestInt n = n := by
  have hx := natAbs_toInt_le x
  have hy := natAbs_toInt_le y
  have hexact : pow2 53 = 9007199254740992 := rfl
  exact Number.nearestInt_of_natAbs_le (by omega)

theorem bitwise_toInt {op : Nat → Nat → Nat} {z : BitVec 32} (h : z.toNat = op x.toNat y.toNat) :
    bitwise op x.toInt y.toInt = z.toInt := by
  rw [bitwise, bits_toInt, bits_toInt, ← h, signed_toNat]

theorem distance_toInt : distance y.toInt = y.toNat % 32 := by
  rw [distance, bits_toInt]

theorem shiftLeft_toInt : shiftLeft x.toInt y.toInt = (x <<< (y.toNat % 32)).toInt := by
  rw [shiftLeft, bits_toInt, distance_toInt, ← signed_toNat, BitVec.toNat_shiftLeft, Nat.shiftLeft_eq]
  exact (Int.emod_bmod _ _).symm

theorem shiftRight_toInt : shiftRight x.toInt y.toInt = (x.sshiftRight (y.toNat % 32)).toInt := by
  rw [shiftRight, signed_toInt, distance_toInt, BitVec.toInt_sshiftRight, Int.shiftRight_eq_div_pow]
  rfl

theorem shiftRightUnsigned_toInt : shiftRightUnsigned x.toInt y.toInt = (x >>> (y.toNat % 32)).toInt := by
  rw [shiftRightUnsigned, bits_toInt, distance_toInt, ← signed_toNat, BitVec.toNat_ushiftRight,
    Nat.shiftRight_eq_div_pow]
  rfl

end Word

namespace Operator

open Word

/-- The two's-complement operations on words of 32 bits; `none` for a division by zero. -/
def onWords (operator : Operator) (x y : BitVec 32) : Option (BitVec 32) :=
  match operator with
  | add => some (x + y)
  | sub => some (x - y)
  | mul => some (x * y)
  | div => if y = 0 then none else some (x.sdiv y)
  | rem => if y = 0 then none else some (x.srem y)
  | and => some (x &&& y)
  | or => some (x ||| y)
  | xor => some (x ^^^ y)
  | shl => some (x <<< (y.toNat % 32))
  | shr => some (x.sshiftRight (y.toNat % 32))
  | ushr => some (x >>> (y.toNat % 32))

theorem apply_toInt (operator : Operator) (x y : BitVec 32) :
    operator.apply x.toInt y.toInt = (operator.onWords x y).map BitVec.toInt := by
  cases operator with
  | add =>
    simp only [apply, onWords, nearestInt_toInt x y (Int.natAbs_add_le _ _), Option.map_some]
    exact congrArg some (BitVec.toInt_add x y).symm
  | sub =>
    simp only [apply, onWords, nearestInt_toInt x y (Int.natAbs_sub_le _ _), Option.map_some]
    exact congrArg some BitVec.toInt_sub.symm
  | mul => exact congrArg some (BitVec.toInt_mul x y).symm
  | div =>
    simp only [apply, onWords, toInt_eq_zero_iff]
    split
    · rfl
    · rename_i hne
      have hx := natAbs_toInt_le x
      have hy := natAbs_toInt_le y
      rw [Number.truncate_quotient (by omega) (by omega) (mt (toInt_eq_zero_iff y).1 hne)]
      exact congrArg some (BitVec.toInt_sdiv x y).symm
  | rem =>
    simp only [apply, onWords, toInt_eq_zero_iff]
    split
    · rfl
    · rw [← BitVec.toInt_srem, signed_toInt]
      rfl
  | and => exact congrArg some (bitwise_toInt x y (BitVec.toNat_and x y))
  | or => exact congrArg some (bitwise_toInt x y (BitVec.toNat_or x y))
  | xor => exact congrArg some (bitwise_toInt x y (BitVec.toNat_xor x y))
  | shl => exact congrArg some (shiftLeft_toInt x y)
  | shr => exact congrArg some (shiftRight_toInt x y)
  | ushr => exact congrArg some (shiftRightUnsigned_toInt x y)

/-! ## Division -/

/-- Quotient and remainder of integers of 32 bits. The quotient is cut toward zero; only that of the least integer by -1
does not fit and is the least integer again. The remainder is smaller than the divisor and on the dividend's side of
zero. Together they give the dividend back, up to a multiple of `2^32`. -/
structure Divides (a b q r : Int) : Prop where
  quotient : ¬(a = -2147483648 ∧ b = -1) → q = a.tdiv b
  least : a = -2147483648 → b = -1 → q = -2147483648
  smaller : r.natAbs < b.natAbs
  nonneg : 0 ≤ a → 0 ≤ r
  nonpos : a ≤ 0 → r ≤ 0
  whole : signed 32 (q * b + r) = a

theorem divides_toInt {x y : BitVec 32} (hne : y ≠ 0) :
    Divides x.toInt y.toInt (x.sdiv y).toInt (x.srem y).toInt where
  quotient h := by
    refine BitVec.toInt_sdiv_of_ne_or_ne x y ?_
    by_cases hx : x = BitVec.intMin 32
    · right
      rintro rfl
      exact h ⟨congrArg BitVec.toInt hx, rfl⟩
    · exact .inl hx
  least hx hy := by
    obtain rfl : x = BitVec.intMin 32 := BitVec.toInt_inj.1 hx
    obtain rfl : y = -1 := BitVec.toInt_inj.1 hy
    rfl
  smaller := by
    rw [BitVec.toInt_srem, Int.natAbs_tmod]
    exact Nat.mod_lt _ (Int.natAbs_pos.2 (mt (toInt_eq_zero_iff y).1 hne))
  nonneg h := by
    rw [BitVec.toInt_srem]
    exact Int.tmod_nonneg _ h
  nonpos h := by
    have hneg := Int.tmod_nonneg y.toInt (Int.neg_nonneg_of_nonpos h)
    rw [Int.neg_tmod] at hneg
    rw [BitVec.toInt_srem]
    omega
  whole := by
    rw [BitVec.toInt_sdiv, BitVec.toInt_srem]
    change ((x.toInt.tdiv y.toInt).bmod (2 ^ 32) * y.toInt + x.toInt.tmod y.toInt).bmod (2 ^ 32) = x.toInt
    rw [← Int.bmod_add_bmod, Int.bmod_mul_bmod, Int.bmod_add_bmod, Int.mul_comm, Int.mul_tdiv_add_tmod]
    exact signed_toInt x

/-- On integers of 32 bits every operation is that on words, and nothing has no result but a division by zero. The
quotient that is rounded before its fraction is dropped is the exact one. -/
theorem computes_on_words (operator : Operator) {a b : Int} (ha : -2147483648 ≤ a ∧ a ≤ 2147483647)
    (hb : -2147483648 ≤ b ∧ b ≤ 2147483647) :
    operator.apply a b = (operator.onWords (.ofInt 32 a) (.ofInt 32 b)).map BitVec.toInt ∧
      (operator.apply a b = none ↔ (operator = .div ∨ operator = .rem) ∧ b = 0) ∧
      (b ≠ 0 → (Number.quotient a b).truncate = a.tdiv b ∧
        ∃ q r, div.apply a b = some q ∧ rem.apply a b = some r ∧ Divides a b q r) := by
  have hword : ∀ n : Int, -2147483648 ≤ n ∧ n ≤ 2147483647 → (BitVec.ofInt 32 n).toInt = n := fun n hn =>
    BitVec.toInt_ofInt_eq_self (by decide) hn.1 (Int.lt_add_one_of_le hn.2)
  have happly : ∀ operator : Operator,
      operator.apply a b = (operator.onWords (.ofInt 32 a) (.ofInt 32 b)).map BitVec.toInt := by
    intro operator
    rw [← apply_toInt, hword a ha, hword b hb]
  refine ⟨happly operator, ?_, fun hne => ⟨Number.truncate_quotient (by omega) (by omega) hne, ?_⟩⟩
  · cases operator <;> simp [apply]
  · have hne' : BitVec.ofInt 32 b ≠ 0 := fun hzero => hne ((hword b hb).symm.trans (congrArg BitVec.toInt hzero))
    have hdivides := divides_toInt (x := .ofInt 32 a) hne'
    rw [hword a ha, hword b hb] at hdivides
    refine ⟨_, _, ?_, ?_, hdivides⟩
    · rw [happly, onWords, if_neg hne', Option.map_some]
    · rw [happly, onWords, if_neg hne', Option.map_some]

/-- The quotient of the least integer by -1 is one more than the greatest integer, and so it is the least one again. -/
theorem least_by_minus_one :
    div.apply (-2147483648) (-1) = some (-2147483648) ∧ rem.apply (-2147483648) (-1) = some 0 ∧
      (Number.quotient (-2147483648) (-1)).truncate = 2147483648 ∧ Divides (-2147483648) (-1) (-2147483648) 0 := by
  obtain ⟨-, -, hdivision⟩ := computes_on_words .div (a := -2147483648) (b := -1) (by decide) (by decide)
  obtain ⟨htruncate, q, r, hquotient, hremainder, hdivides⟩ := hdivision (by decide)
  have hq : q = -2147483648 := hdivides.least rfl rfl
  have hr : r = 0 := Option.some.inj (hremainder.symm.trans rfl)
  subst hq hr
  exact ⟨hquotient, hremainder, htruncate, hdivides⟩

end Operator

end Bytecode
