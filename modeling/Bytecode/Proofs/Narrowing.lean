import Bytecode.Proofs.Increment
import Bytecode.Proofs.LastWrite
import Mathlib.Data.Int.ModEq
/-!
# Narrowing

Whatever shifts and masks `Value.narrow` makes a value with, it takes an integer of any size to
the one number of a type that is congruent to it modulo the type's width
(`Value.toInt?_narrow`, `Primitive.eq_wrap_iff`). So two integers narrow to the same value if
and only if they are congruent (`Value.narrow_eq_iff`), and that is all that the places need
where numbers are narrowed: a cast before a store in an array does not show, and a constant is
what the number that it stands for is.
-/
namespace Bytecode

namespace Primitive

/-! ## The numbers of a type -/

/-- The bits of a number. The numbers of `boolean` are 0 and 1. -/
def width : Primitive → Nat
  | int => 32
  | boolean => 1
  | char => 16
  | short => 16
  | byte => 8

/-- The least number. -/
def least : Primitive → Int
  | int => -2147483648
  | boolean => 0
  | char => 0
  | short => -32768
  | byte => -128

/-- The number is one of the type's. -/
def Holds (p : Primitive) (n : Int) : Prop := p.least ≤ n ∧ n < p.least + 2 ^ p.width

/-- The number of a type that an integer comes to, counted from the least one. -/
def wrap (p : Primitive) (n : Int) : Int := (n - p.least) % 2 ^ p.width + p.least

variable {p q : Primitive} {m n : Int}

theorem two_pow_width_pos (p : Primitive) : (0 : Int) < 2 ^ p.width := Int.pow_pos (by decide)

theorem holds_wrap (p : Primitive) (n : Int) : p.Holds (p.wrap n) := by
  have hlow := Int.emod_nonneg (n - p.least) (Int.ne_of_gt p.two_pow_width_pos)
  have hhigh := Int.emod_lt_of_pos (n - p.least) p.two_pow_width_pos
  unfold Holds wrap
  omega

theorem wrap_modEq (p : Primitive) (n : Int) : p.wrap n ≡ n [ZMOD 2 ^ p.width] := by
  have h := (Int.mod_modEq (n - p.least) (2 ^ p.width)).add_right p.least
  rwa [Int.sub_add_cancel] at h

theorem wrap_congr (h : m ≡ n [ZMOD 2 ^ p.width]) : p.wrap m = p.wrap n := by
  have hshifted : (m - p.least) % 2 ^ p.width = (n - p.least) % 2 ^ p.width := h.sub_right p.least
  rw [wrap, wrap, hshifted]

theorem wrap_of_holds (h : p.Holds n) : p.wrap n = n := by
  have hlow : 0 ≤ n - p.least := Int.sub_nonneg_of_le h.1
  have hhigh : n - p.least < 2 ^ p.width := Int.sub_left_lt_of_lt_add h.2
  rw [wrap, Int.emod_eq_of_lt hlow hhigh, Int.sub_add_cancel]

/-- Each integer is congruent to one number of a type. -/
theorem eq_wrap_iff : m = p.wrap n ↔ p.Holds m ∧ m ≡ n [ZMOD 2 ^ p.width] := by
  constructor
  · rintro rfl
    exact ⟨p.holds_wrap n, p.wrap_modEq n⟩
  · rintro ⟨hm, hcongruent⟩
    rw [← wrap_congr hcongruent, wrap_of_holds hm]

end Primitive

namespace Value

variable {p q : Primitive} {m n : Int} {c : Constant}

/-! ## Narrowed values -/

theorem signed_eq_wrap (bits : Nat) (hwidth : p.width = bits + 1) (hleast : p.least = -(pow2 bits : Int)) :
    Word.signed (bits + 1) n = p.wrap n := by
  obtain ⟨hlow, hhigh⟩ := Word.signed_bounds bits n
  have hpow : ((pow2 bits : Nat) : Int) = 2 ^ bits := Int.natCast_pow 2 bits
  refine Primitive.eq_wrap_iff.2 ⟨⟨hleast ▸ hlow, ?_⟩, ?_⟩
  · rw [hleast, hwidth, Int.pow_succ]
    omega
  · rw [hwidth]
    exact (Int.bmod_emod : n.bmod (2 ^ (bits + 1)) % _ = _)

/-- Shifts and masks leave of an integer the number of the type that it is congruent to. -/
theorem toInt?_narrow (p : Primitive) (n : Int) : (narrow p n).toInt? = some (p.wrap n) := by
  cases p with
  | int =>
    rw [narrow_int]
    exact congrArg some (signed_eq_wrap 31 rfl rfl)
  | boolean =>
    rw [narrow_boolean]
    simp only [toInt?, Primitive.wrap, Primitive.least, Primitive.width]
    grind
  | char =>
    rw [narrow_char]
    simp [toInt?, Primitive.wrap, Primitive.least, Primitive.width, pow2]
  | short =>
    rw [narrow_short]
    exact congrArg some (signed_eq_wrap 15 rfl rfl)
  | byte =>
    rw [narrow_byte]
    exact congrArg some (signed_eq_wrap 7 rfl rfl)

/-- A type has one value for each of its numbers. -/
theorem narrow_eq_of_toInt? (h : (narrow p m).toInt? = (narrow p n).toInt?) : narrow p m = narrow p n := by
  cases p with
  | boolean =>
    have hbool : ∀ a b : Bool, (boolean a).toInt? = (boolean b).toInt? → a = b := by decide
    exact congrArg boolean (hbool _ _ h)
  | int => exact congrArg int (Option.some.inj h)
  | char => exact congrArg char (Option.some.inj h)
  | short => exact congrArg short (Option.some.inj h)
  | byte => exact congrArg byte (Option.some.inj h)

/-- Congruent integers narrow to the same value, others do not. -/
theorem narrow_eq_iff : narrow p m = narrow p n ↔ m ≡ n [ZMOD 2 ^ p.width] := by
  constructor
  · intro h
    have hnumber := congrArg toInt? h
    rw [toInt?_narrow, toInt?_narrow, Option.some.injEq] at hnumber
    exact (p.wrap_modEq m).symm.trans (hnumber ▸ p.wrap_modEq n)
  · intro h
    exact narrow_eq_of_toInt? (by rw [toInt?_narrow, toInt?_narrow, Primitive.wrap_congr h])

/-- Narrowing to a type that is at least as wide makes no difference beforehand. -/
theorem narrow_narrow (hwidth : p.width ≤ q.width) (h : (narrow q n).toInt? = some m) : narrow p m = narrow p n := by
  rw [toInt?_narrow, Option.some.injEq] at h
  have hdvd : (2 : Int) ^ p.width ∣ 2 ^ q.width := pow_dvd_pow 2 hwidth
  exact narrow_eq_iff.2 (h ▸ (q.wrap_modEq n).of_dvd hdvd)

/-! ## Constants -/

/-- A number of the type is its own constant. -/
theorem ofConstant_number (h : p.Holds m) : ofConstant p (.number (.int m)) = narrow p m := by
  cases p with
  | boolean =>
    obtain rfl | rfl : m = 0 ∨ m = 1 := by
      simp only [Primitive.Holds, Primitive.least, Primitive.width] at h
      omega
    · rfl
    · rfl
  | _ => rfl

/-- A constant stands for a number of its type, and that number's constant for the same value. -/
theorem ofConstant_ofConstant (p : Primitive) (c : Constant) :
    ∃ m, (ofConstant p c).toInt? = some m ∧ ofConstant p (.number (.int m)) = ofConstant p c := by
  obtain ⟨n, hn⟩ := ofConstant_eq_narrow p c
  refine ⟨p.wrap n, by rw [hn, toInt?_narrow], ?_⟩
  rw [ofConstant_number (p.holds_wrap n), hn]
  exact narrow_narrow (Nat.le_refl _) (toInt?_narrow p n)

end Value

/-! ## Stores in arrays -/

namespace Exec

variable {act : Activation} {rest : OperandStack}

theorem execute_arrayStore {declared element : Ty} {v w index : Value} {key : Number} {items : List Value} {i : Int}
    (hstack : act.frame.stack = v :: index :: .reference (some key) :: rest) (hindex : index.toInt? = some i)
    (harray : act.heap.get? key = some (.array element items)) (hplace : 0 ≤ i ∧ i < items.length)
    (hw : Coerces element v w) : execute (.arrayStore declared) act =
      .ok .next { act.withStack rest with heap := act.heap.set key (.array element (items.set i.toNat w)) } := by
  have hpop : pop act = .ok v (act.withStack (index :: .reference (some key) :: rest)) := pop_eq_ok.2 ⟨_, hstack, rfl⟩
  have hcoerce : coerce element v (act.withStack rest) = .ok w _ := coerce_eq_ok.2 ⟨hw, rfl⟩
  have harray' : (act.withStack (index :: .reference (some key) :: rest)).heap.get? key = some (.array element items) :=
    harray
  rw [execute, arrayStore_eq, bind_of_ok hpop, atIndex_array rfl hindex harray', if_pos hplace]
  exact bind_of_ok hcoerce

theorem execute_cast {target : CastTarget} {v : Value} {n : Int} (hstack : act.frame.stack = v :: rest)
    (hn : v.toInt? = some n) (hv : ∀ b, v ≠ .boolean b) :
    execute (.cast target) act = .ok .next (act.withStack (.narrow target.type n :: rest)) := by
  have hpop : pop act = .ok v (act.withStack rest) := pop_eq_ok.2 ⟨rest, hstack, rfl⟩
  have hint : expectInt v (act.withStack rest) = .ok n _ := expectInt_eq_ok.2 ⟨hn, rfl⟩
  simp only [execute, cast]
  rw [bind_of_ok hpop, bind_of_ok hint]
  cases v with
  | boolean b => exact absurd rfl (hv b)
  | _ => rfl

end Exec

/-- An array keeps a value of its own type as it is. -/
theorem coerces_narrow (p : Primitive) (n : Int) : Coerces (.primitive p) (.narrow p n) (.narrow p n) := by
  have hnumber := Value.toInt?_narrow p n
  have hcoerces : Coerces (.primitive p) (.narrow p n) (.narrow p (p.wrap n)) := .scalar hnumber
  rwa [Value.narrow_narrow (Nat.le_refl _) hnumber] at hcoerces

/-- The machine is about to store a value in an array: on its stack are the value, the index of one of the items and the
key of the array. -/
structure Machine.Stores (machine : Machine) (frame : Frame) (callers : List Frame) (v : Value) (i : Int) (key : Number)
    (element : Ty) (items : List Value) (rest : OperandStack) : Prop where
  frames : machine.state.frames = frame :: callers
  stack : ∃ index, frame.stack = v :: index :: .reference (some key) :: rest ∧ index.toInt? = some i
  array : machine.state.heap.get? key = some (.array element items)
  place : 0 ≤ i ∧ i < items.length

namespace Machine

variable {machine : Machine} {frame : Frame} {callers : List Frame} {v w : Value} {n i : Int} {key : Number}
  {element : Ty} {target : CastTarget} {items : List Value} {rest : OperandStack}

theorem Stores.perform_arrayStore (h : machine.Stores frame callers v i key element items rest)
    (hw : Coerces element v w) (declared : Ty) : ∃ stored,
      machine.perform (.arrayStore declared) = .next .stay stored ∧
      stored.state.heap = machine.state.heap.set key (.array element (items.set i.toNat w)) := by
  obtain ⟨index, hstack, hindex⟩ := h.stack
  exact ⟨_, perform_of_next h.frames (Exec.execute_arrayStore hstack hindex h.array h.place hw), rfl⟩

/-- A cast leaves the index and the array below the value as they are. -/
theorem Stores.perform_cast (h : machine.Stores frame callers v i key element items rest) (hn : v.toInt? = some n)
    (hv : ∀ b, v ≠ .boolean b) : ∃ casted frame', machine.perform (.cast target) = .next .stay casted ∧
      casted.Stores frame' callers (.narrow target.type n) i key element items rest ∧
      casted.state.heap = machine.state.heap := by
  obtain ⟨index, hstack, hindex⟩ := h.stack
  exact ⟨_, _, perform_of_next h.frames (Exec.execute_cast hstack hn hv),
    ⟨rfl, ⟨index, rfl, hindex⟩, h.array, h.place⟩, rfl⟩

theorem Stores.performAll_cast (h : machine.Stores frame callers v i key (.primitive target.type) items rest)
    (hn : v.toInt? = some n) (hv : ∀ b, v ≠ .boolean b) (declared : Ty) : ∃ stored,
      machine.performAll [.cast target, .arrayStore declared] = .next .stay stored ∧
      stored.state.heap = machine.state.heap.set key
        (.array (.primitive target.type) (items.set i.toNat (.narrow target.type n))) := by
  obtain ⟨casted, frame', hcast, hstores, hheap⟩ := h.perform_cast hn hv
  obtain ⟨stored, hstore, hstored⟩ := hstores.perform_arrayStore (coerces_narrow target.type n) declared
  refine ⟨stored, ?_, hheap ▸ hstored⟩
  rw [performAll, hcast]
  simp only [performAll, hstore]

end Machine

/-- What shifts and masks leave of an integer in a type is the one number of the type that is congruent
to it, and it is the same if the integer is narrowed before to a type that is at least as wide, or to
the same one. So a cast to the type of an array does not show in what is stored there, and a
constant stands for what the constant of its number stands for. -/
theorem narrowing_is_projection :
    (∀ (p : Primitive) (n : Int), (Value.narrow p n).kind = p.name ∧ ∃ m, (Value.narrow p n).toInt? = some m ∧
        ∀ other, p.Holds other ∧ other ≡ n [ZMOD 2 ^ p.width] ↔ other = m) ∧
      (∀ (p q : Primitive) (n m : Int), p.width ≤ q.width → (Value.narrow q n).toInt? = some m →
        Value.narrow p m = .narrow p n) ∧
      (∀ (machine : Machine) (frame : Frame) (callers : List Frame) (target : CastTarget) (v : Value) (n i : Int)
        (key : Number) (items : List Value) (rest : OperandStack) (declared : Ty),
        machine.Stores frame callers v i key (.primitive target.type) items rest → v.toInt? = some n →
        (∀ b, v ≠ .boolean b) → ∃ plain casted, machine.perform (.arrayStore declared) = .next .stay plain ∧
          machine.performAll [.cast target, .arrayStore declared] = .next .stay casted ∧
          casted.state.heap = plain.state.heap) ∧
      ∀ (p : Primitive) (c : Constant), ∃ m, (Value.ofConstant p c).toInt? = some m ∧
        Value.ofConstant p (.number (.int m)) = .ofConstant p c := by
  refine ⟨fun p n => ⟨Value.kind_narrow p n, p.wrap n, Value.toInt?_narrow p n, fun _ => Primitive.eq_wrap_iff.symm⟩,
    fun p q n m hwidth h => Value.narrow_narrow hwidth h, ?_, Value.ofConstant_ofConstant⟩
  intro machine frame callers target v n i key items rest declared h hn hv
  obtain ⟨plain, hplain, hheap⟩ := h.perform_arrayStore (.scalar hn) declared
  obtain ⟨casted, hcasted, hheap'⟩ := h.performAll_cast hn hv declared
  exact ⟨plain, casted, hplain, hcasted, hheap'.trans hheap.symm⟩

namespace Sample

def storeByte : MethodId := ⟨"Sample", "storeByte", [], none⟩

/-- A machine that is about to store 300 in the second item of an array of bytes. The index is a boolean. -/
def byteStore : Machine :=
  ⟨⟨⟨#[.array (.primitive .byte) [.byte 7, .byte 7]]⟩,
    [⟨.start storeByte, [], [.int 300, .boolean true, .reference (some (.int 0))]⟩], []⟩, .ofImage (.registry .empty)⟩

theorem byteStore_stores :
    byteStore.Stores ⟨.start storeByte, [], [.int 300, .boolean true, .reference (some (.int 0))]⟩ [] (.int 300) 1
      (.int 0) (.primitive .byte) [.byte 7, .byte 7] [] :=
  ⟨rfl, ⟨_, rfl, rfl⟩, rfl, by decide⟩

end Sample

open Sample in
/-- 300 is 44 and 256. As a `byte` it is 44 also if it was 300 and 65536 before it became a `short`,
and also if it is cast before it is stored. -/
theorem three_hundred_is_byte_44 :
    Value.narrow .short 65836 = .short 300 ∧ Value.narrow .byte 300 = .narrow .byte 65836 ∧
      ∃ plain casted, byteStore.perform (.arrayStore (.primitive .int)) = .next .stay plain ∧
        byteStore.performAll [.cast .byte, .arrayStore (.primitive .int)] = .next .stay casted ∧
        casted.state.heap = plain.state.heap ∧
        plain.state.heap.entries = #[.array (.primitive .byte) [.byte 7, .byte 44]] := by
  obtain ⟨-, hwider, hcast, -⟩ := narrowing_is_projection
  have hshort : Value.narrow .short 65836 = .short 300 := rfl
  obtain ⟨plain, casted, hplain, hcasted, hheap⟩ :=
    hcast _ _ _ .byte _ 300 _ _ _ _ (.primitive .int) byteStore_stores rfl (by simp)
  refine ⟨hshort, hwider .byte .short 65836 300 (by decide) rfl, plain, casted, hplain, hcasted, hheap, ?_⟩
  cases hplain
  rfl

end Bytecode
