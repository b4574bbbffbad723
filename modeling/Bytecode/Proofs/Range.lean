import Bytecode.Proofs.Reference
/-!
# Numbers stay in the ranges of their types

Whatever a constant, an argument text or an instruction makes is narrowed to its type
(`Value.inRange_narrow`), and `Machine.Sound` says that nothing else is about. So all
values of all states of a run are in range (`numbers_stay_in_range`), in the state that
its last step leaves too, and so is the value that it returns.
-/
namespace Bytecode

/-- A number between the least and the greatest one of its type, a boolean or a reference. -/
def Value.InRange : Value → Prop
  | .int n => -2147483648 ≤ n ∧ n ≤ 2147483647
  | .short n => -32768 ≤ n ∧ n ≤ 32767
  | .byte n => -128 ≤ n ∧ n ≤ 127
  | .char n => 0 ≤ n ∧ n ≤ 65535
  | .boolean _ | .reference _ => True
  | .array .. | .object .. => False

/-- The signed reading of some bits, one of them for the sign. -/
theorem Word.signed_bounds (bits : Nat) (n : Int) :
    -(pow2 bits : Int) ≤ signed (bits + 1) n ∧ signed (bits + 1) n < pow2 bits := by
  have hdouble : pow2 (bits + 1) = 2 * pow2 bits := Nat.pow_succ'
  have hpos : 0 < pow2 (bits + 1) := Nat.two_pow_pos _
  have hlow := Int.le_bmod (x := n) hpos
  have hhigh := Int.bmod_lt (x := n) hpos
  simp only [signed]
  rw [hdouble] at hlow hhigh ⊢
  omega

namespace Value

theorem inRange_narrow (p : Primitive) (n : Int) : (narrow p n).InRange := by
  cases p with
  | int =>
    obtain ⟨hlow, hhigh⟩ := Word.signed_bounds 31 n
    rw [narrow_int]
    exact ⟨hlow, Int.le_of_lt_add_one hhigh⟩
  | boolean => trivial
  | char =>
    have hpos : (0 : Int) < pow2 16 := by decide
    rw [narrow_char]
    exact ⟨Int.emod_nonneg n (Int.ne_of_gt hpos), Int.le_of_lt_add_one (Int.emod_lt_of_pos n hpos)⟩
  | short =>
    obtain ⟨hlow, hhigh⟩ := Word.signed_bounds 15 n
    rw [narrow_short]
    exact ⟨hlow, Int.le_of_lt_add_one hhigh⟩
  | byte =>
    obtain ⟨hlow, hhigh⟩ := Word.signed_bounds 7 n
    rw [narrow_byte]
    exact ⟨hlow, Int.le_of_lt_add_one hhigh⟩

theorem Within.inRange {size : Nat} {v : Value} (h : v.Within size) : v.InRange := by
  cases h with
  | scalar p n => exact inRange_narrow p n
  | null => trivial
  | reference hkey => trivial

end Value

/-! ## The last step -/

section Last

variable {P : Value → Prop} {before after : State}

theorem State.All.popped (h : before.All P) (hpopped : before.OnlyPopped after) : after.All P := by
  cases hpopped with
  | unchanged => exact h
  | @popped frame callers rest hframes hrest =>
    obtain ⟨hframe, hcallers⟩ := List.forall_mem_cons.1 (hframes ▸ h.frames)
    refine ⟨List.forall_mem_cons.2 ⟨⟨hframe.locals, fun v hv => ?_⟩, hcallers⟩, h.heap, h.statics⟩
    exact hframe.stack v (hrest.subset hv)

theorem State.All.emptied (h : before.All P) (hemptied : before.Emptied after) : after.All P := by
  obtain ⟨frame, -, rfl⟩ := hemptied
  refine ⟨fun frame hframe => ?_, h.heap, h.statics⟩
  cases hframe

/-- What holds of all values of a state and of those of the next one holds of what a step leaves, also
if it is the last one. -/
theorem State.All.left {machine : Machine} (h : machine.state.All P)
    (hnext : ∀ move next, step machine = .next move next → next.state.All P) :
    (step machine).machine.state.All P := by
  cases hstep : step machine with
  | next move next => exact hnext move next hstep
  | halt outcome returned left =>
    rcases halted_cases hstep with ⟨-, hemptied⟩ | ⟨-, -, -, hpopped⟩
    · exact h.emptied hemptied
    · exact h.popped hpopped
  | fault fault left => exact h.popped (faulted_onlyPopped hstep)

end Last

/-- What a sound machine returns is a scalar, null or a key. -/
theorem Machine.Sound.returned {machine left : Machine} (h : machine.Sound) {outcome : Outcome} {returned : Option Value}
    (hstep : step machine = .halt outcome returned left) : ∀ v ∈ returned, v.Within left.state.heap.size := by
  have hcases := step_cases machine
  rw [hstep] at hcases
  cases hcases with
  | noFrame hframes hresult => cases hresult
  | unfetched hframes hfetch hresult => cases hresult
  | @stopped frame callers i store stop act hframes hfetch hexecute hresult =>
    -- What stops inside an instruction returns nothing.
    cases stop with
    | halt outcome =>
      cases hresult
      intro v hv
      cases hv
    | fault f => cases hresult
  | @completed frame callers i store control act hframes hfetch hexecute hresult =>
    rcases control.apply_cases act callers with ⟨move, happly, -⟩ | ⟨returned', rfl, rfl, happly⟩
    · rw [happly] at hresult
      cases hresult
    · rw [happly] at hresult
      cases hresult
      have heffect := Exec.effect_of_execute hexecute
      have hact := h.values.activation hframes store
      exact (heffect.within (h.store.plain_of_fetch hfetch) hact).2

/-! ## Runs -/

/-- In every state of a run over class files or decoded code, from any method and any arguments that a text
lists, all numbers in local slots, operand stacks, arrays, objects and static fields are
in the ranges of their types; so they are in what the step from there leaves, however it
ends, and so is a value that it returns. What an interpreter reports as returned is in
range too. -/
theorem numbers_stay_in_range {image : Image} (himage : image.RegistersDecoded) (method : MethodId) {text : Text}
    {values : List Value} (hparse : Arguments.parse text = .ok values) :
    (∀ k machine, Reaches ⟨State.initial method values, .ofImage image⟩ k machine →
      machine.state.All Value.InRange ∧ (step machine).machine.state.All Value.InRange ∧
        ∀ outcome returned left, step machine = .halt outcome returned left → ∀ v ∈ returned, v.InRange) ∧
    ∀ interpreter : Interpreter, interpreter.image = image →
      ∀ r, (interpreter.runMethod method values).1 = .ok r → ∀ v ∈ r.returned, v.InRange := by
  have hfirst := Machine.Sound.initial himage.decoded method (Arguments.parse_literal hparse)
  constructor
  · intro k machine hreaches
    have hsound := hfirst.reaches hreaches
    have hrange := hsound.values.mono fun v hv => hv.inRange
    refine ⟨hrange, hrange.left fun move next hstep => ?_, fun outcome returned left hstep v hv => ?_⟩
    · exact (hsound.next hstep).values.mono fun v hv => hv.inRange
    · exact (hsound.returned hstep v hv).inRange
  · rintro interpreter rfl r hr v hv
    obtain ⟨k, outcome, left, j, last, -, hreaches, hstep⟩ := Interpreter.halts_of_execute hr hv
    rw [Interpreter.machine_note] at hreaches
    exact ((hfirst.reaches hreaches).returned hstep v rfl).inRange

namespace Sample

def opposite : MethodId := ⟨"Sample", "opposite", [], some (.primitive .int)⟩

/-- Negates the least number of its type. -/
def oppositeCode : Code := #[.push (.int (-2147483648)), .negate, .return (some .int)]

def oppositeImage : Image := .registry (Registry.empty.addMethod opposite oppositeCode)

/-- The constant is one too large for its type. -/
theorem decoded_oppositeCode : oppositeCode.Decoded :=
  ⟨[record "push" [("value", .object [("type", .string "int"), ("value", .number (.int 2147483648))])],
    record "negate" [],
    typed "return" "int" []], rfl⟩

theorem decoded_oppositeImage : oppositeImage.Decoded := by
  refine Image.decoded_registry fun code hcode => ?_
  have hcodes : code ∈ [oppositeCode] := hcode
  obtain rfl := List.mem_singleton.1 hcodes
  exact decoded_oppositeCode

end Sample

open Sample in
/-- The least number of its type has no opposite there, and what is returned is in range all the same. -/
theorem opposite_of_least :
    let interpreter := Interpreter.ofImage oppositeImage (.int 3) false
    (interpreter.runMethod opposite []).1 = .ok ⟨"ok", 3, some (.int (-2147483648))⟩ ∧
      (Value.int (-2147483648)).InRange := by
  intro interpreter
  have hrun : (interpreter.runMethod opposite []).1 = .ok ⟨"ok", 3, some (.int (-2147483648))⟩ := rfl
  have himage : oppositeImage.RegistersDecoded := decoded_oppositeImage
  have hparse : Arguments.parse "()" = .ok [] := rfl
  exact ⟨hrun, (numbers_stay_in_range himage opposite hparse).2 interpreter rfl _ hrun _ rfl⟩

end Bytecode
