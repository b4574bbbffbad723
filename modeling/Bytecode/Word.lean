import Bytecode.Number
/-!
# Words

The integers of the machine are words of 32 bits. The operations here take integers of any size,
work on their low 32 bits and read the result as signed. Shifted up and down again, a word keeps its
low bits, read as signed (`shiftRight_shiftLeft`); under a mask it keeps them, read as unsigned
(`bitwise_mask`).
-/
namespace Bytecode.Word

/-- The signed reading of the low `width` bits. -/
def signed (width : Nat) (n : Int) : Int := n.bmod (pow2 width)

/-- The low 32 bits. -/
def bits (n : Int) : Nat := (n % pow2 32).toNat

/-- The signed integer of a bitwise operation on the low 32 bits of both operands. -/
def bitwise (op : Nat → Nat → Nat) (a b : Int) : Int := signed 32 (op (bits a) (bits b))

/-! ## Shifts -/

/-- How far a shift shifts: the low five bits of its right operand. -/
def distance (b : Int) : Nat := bits b % 32

def shiftLeft (a b : Int) : Int := signed 32 (bits a * pow2 (distance b))

/-- Keeps the sign. -/
def shiftRight (a b : Int) : Int := signed 32 a / pow2 (distance b)

/-- Fills up with zeros. -/
def shiftRightUnsigned (a b : Int) : Int := signed 32 (bits a / pow2 (distance b) : Nat)

/-! ## Low bits -/

theorem signed_signed {small large : Nat} (h : small ≤ large) (n : Int) :
    signed small (signed large n) = signed small n :=
  Int.bmod_bmod_of_dvd (Nat.pow_dvd_pow 2 h)

theorem signed_of_lt {width n : Nat} (h : n < pow2 width) : signed (width + 1) n = n := by
  have hdouble : pow2 (width + 1) = 2 * pow2 width := Nat.pow_succ'
  exact Int.bmod_eq_of_le_mul_two (by omega) (by omega)

theorem bits_eq (n : Int) : (bits n : Int) = n % pow2 32 :=
  Int.toNat_of_nonneg (Int.emod_nonneg n (by decide))

theorem bits_of_lt {n : Nat} (h : n < pow2 32) : bits n = n :=
  congrArg Int.toNat (Int.emod_eq_of_lt (Int.natCast_nonneg n) (Int.ofNat_lt.2 h))

theorem signed_bits {width : Nat} (h : width ≤ 32) (n : Int) : signed width (bits n) = signed width n := by
  rw [← signed_signed h, bits_eq, signed, signed, Int.emod_bmod]
  exact signed_signed h n

theorem bits_emod {width : Nat} (h : width ≤ 32) (n : Int) : (bits n : Int) % pow2 width = n % pow2 width := by
  rw [bits_eq]
  exact Int.emod_emod_of_dvd n (Int.natCast_dvd_natCast.2 (Nat.pow_dvd_pow 2 h))

theorem distance_of_lt {k : Nat} (h : k < 32) : distance k = k := by
  rw [distance, bits_of_lt (Nat.lt_trans h (by decide)), Nat.mod_eq_of_lt h]

/-- What is shifted up and down again loses its high bits. -/
theorem shiftRight_shiftLeft {k : Nat} (h : k < 32) (n : Int) :
    shiftRight (shiftLeft n k) k = signed (32 - k) n := by
  have hwidth : pow2 k * pow2 (32 - k) = pow2 32 := by
    calc pow2 k * pow2 (32 - k) = pow2 (k + (32 - k)) := (Nat.pow_add 2 k (32 - k)).symm
      _ = pow2 32 := congrArg pow2 (Nat.add_sub_cancel' (Nat.le_of_lt h))
  have heven : 2 ∣ pow2 (32 - k) := Nat.pow_dvd_pow 2 (Nat.sub_pos_of_lt h)
  have hshifted : shiftLeft n k = pow2 k * signed (32 - k) n := by
    calc shiftLeft n k = (pow2 k * bits n : Int).bmod (pow2 k * pow2 (32 - k)) := by
          rw [shiftLeft, distance_of_lt h, hwidth, Int.mul_comm, signed]
      _ = pow2 k * signed (32 - k) (bits n) := Int.mod_bmod_mul_of_pos _ _ (Nat.two_pow_pos k) heven
      _ = pow2 k * signed (32 - k) n := by rw [signed_bits (Nat.sub_le 32 k)]
  have hword : signed 32 (shiftLeft n k) = shiftLeft n k := signed_signed (Nat.le_refl 32) _
  rw [shiftRight, distance_of_lt h, hword, hshifted]
  exact Int.mul_ediv_cancel_left _ (Int.natCast_ne_zero.2 (Nat.ne_of_gt (Nat.two_pow_pos k)))

/-- What is masked loses its high bits, and its sign. -/
theorem bitwise_mask {k : Nat} (h : k < 32) (n : Int) :
    bitwise (· &&& ·) n ((pow2 k - 1 : Nat) : Int) = n % pow2 k := by
  have hfits : pow2 k ≤ pow2 31 := Nat.pow_le_pow_right Nat.two_pos (Nat.le_of_lt_succ h)
  have hpos : 0 < pow2 k := Nat.two_pow_pos k
  have hmask : bits ((pow2 k - 1 : Nat) : Int) = pow2 k - 1 := by
    refine bits_of_lt (Nat.lt_of_lt_of_le (Nat.sub_one_lt (Nat.ne_of_gt hpos)) (Nat.le_trans hfits ?_))
    decide
  have hlow : bits n &&& (pow2 k - 1) = bits n % pow2 k := Nat.and_two_pow_sub_one_eq_mod _ k
  rw [bitwise, hmask, hlow, signed_of_lt (Nat.lt_of_lt_of_le (Nat.mod_lt _ hpos) hfits), Int.natCast_emod]
  exact bits_emod (Nat.le_of_lt h) n

theorem bitwise_zero (n : Int) : bitwise (· ||| ·) n 0 = signed 32 n := by
  have hzero : bits n ||| bits 0 = bits n := Nat.or_zero _
  rw [bitwise, hzero, signed_bits (Nat.le_refl 32)]

end Bytecode.Word
