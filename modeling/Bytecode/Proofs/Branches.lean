import Bytecode.Proofs.Increment
import Bytecode.Proofs.Opacity
/-!
# What branches mean

A branch takes two operands and compares the one that was pushed earlier with the one
that was pushed later: numbers by their size, references by their keys. References have
no size. The branch with one operand is the other one with a zero or a null pushed on top
(`Machine.perform_branchZero`).
-/
namespace Bytecode

namespace Condition

/-- What a condition says of two numbers. -/
def Relates (condition : Condition) (a b : Int) : Prop :=
  match condition with
  | eq | is => a = b
  | ne | isnot => a ≠ b
  | lt => a < b
  | ge => a ≥ b
  | gt => a > b
  | le => a ≤ b

/-- What a condition says of two references, by their keys, among which only one that is no number does not
equal itself; conditions that compare by size say nothing. -/
def Identifies (condition : Condition) (a b : Option Number) : Prop :=
  match condition with
  | eq | is => a = b ∧ a ≠ some .notANumber
  | ne | isnot => ¬(a = b ∧ a ≠ some .notANumber)
  | lt | ge | gt | le => False

/-- The condition that holds when this one does not. -/
def opposite : Condition → Condition
  | eq => ne
  | ne => eq
  | is => isnot
  | isnot => is
  | lt => ge
  | ge => lt
  | gt => le
  | le => gt

variable {condition : Condition} {a b : Int}

theorem opposite_relates : condition.opposite.Relates a b ↔ ¬condition.Relates a b := by
  cases condition <;> simp [opposite, Relates]

theorem holds_int : condition.holds (.int a) (.int b) = true ↔ condition.Relates a b := by
  cases condition <;> simp [holds, Number.int_lt_int, Relates] <;> omega

theorem compare_some (condition : Condition) (x y : Number) (site : Text) :
    condition.compare (some x) (some y) site = .ok (condition.holds x y) := by
  cases condition <;> rfl

theorem ofIdentity_iff (h : condition.isOrdering = false) {a b : Option Number} :
    condition.ofIdentity (Value.sameKey a b) = true ↔ condition.Identifies a b := by
  cases condition with
  | lt | ge | gt | le => cases h
  | eq | is => exact Value.sameKey_iff
  | ne | isnot => simp only [ofIdentity, Identifies, Bool.not_eq_true', ← Value.sameKey_iff, Bool.not_eq_true]

/-- Operands that can be compared at all are compared everywhere alike. -/
theorem compare_of_compares {v w : Value} {x y : Option Number} (hv : Compares condition v x)
    (hw : Compares condition w y) : ∃ taken, ∀ site, condition.compare x y site = .ok taken := by
  cases hv with
  | reference ref h => exact ⟨_, fun site => compare_of_identity h _ _ site⟩
  | scalar =>
    cases hw with
    | reference ref h => exact ⟨_, fun site => compare_of_identity h _ _ site⟩
    | scalar => exact ⟨_, fun site => compare_some condition _ _ site⟩

end Condition

/-! ## Executing branches -/

namespace Exec

variable {condition : Condition} {target : Int} {act : Activation} {rest : OperandStack}

theorem execute_branchZero {v : Value} {x : Option Number} {taken : Bool} (hstack : act.frame.stack = v :: rest)
    (hx : Compares condition v x) (hcompare : condition.compare x (zeroFor v) act.frame.pc.text = .ok taken) :
    execute (.branchZero condition target) act = .ok (branchTo taken target) (act.withStack rest) := by
  have hpop : pop act = .ok v (act.withStack rest) := pop_eq_ok.2 ⟨rest, hstack, rfl⟩
  have hv : comparand condition v (act.withStack rest) = .ok x _ := comparand_eq_ok.2 ⟨hx, rfl⟩
  have hdecide : decideJump condition x (zeroFor v) target (act.withStack rest) = .ok (branchTo taken target) _ :=
    decideJump_eq_ok.2 ⟨taken, hcompare, rfl, rfl⟩
  simp only [execute, branchZero]
  rw [bind_of_ok hpop, bind_of_ok hv]
  cases v <;> exact hdecide

theorem comparand_reference (h : condition.isOrdering = true) (ref : Option Number) :
    comparand condition (.reference ref) act = .error (.fault (.mistyped "int" "reference" act.frame.pc.text)) act := by
  simp only [comparand, h]
  rfl

/-- A reference on top has no size, whatever is below it. -/
theorem execute_branch_reference (h : condition.isOrdering = true) {ref : Option Number}
    (hstack : act.frame.stack = .reference ref :: rest) :
    execute (.branch condition target) act =
      .error (.fault (.mistyped "int" "reference" act.frame.pc.text)) (act.withStack rest) := by
  have hpop : pop act = .ok (.reference ref) (act.withStack rest) := pop_eq_ok.2 ⟨rest, hstack, rfl⟩
  simp only [execute, branch]
  rw [bind_of_ok hpop, bind_apply, comparand_reference h]
  rfl

theorem execute_branchZero_reference (h : condition.isOrdering = true) {ref : Option Number}
    (hstack : act.frame.stack = .reference ref :: rest) :
    execute (.branchZero condition target) act =
      .error (.fault (.mistyped "int" "reference" act.frame.pc.text)) (act.withStack rest) := by
  have hpop : pop act = .ok (.reference ref) (act.withStack rest) := pop_eq_ok.2 ⟨rest, hstack, rfl⟩
  simp only [execute, branchZero]
  rw [bind_of_ok hpop, bind_apply, comparand_reference h]
  rfl

/-- Conditions that compare alike branch alike. -/
theorem execute_branch_congr {other : Condition}
    (hcompare : ∀ x y site, condition.compare x y site = other.compare x y site)
    (hordering : condition.isOrdering = other.isOrdering) (target : Int) :
    execute (.branch condition target) = execute (.branch other target) := by
  have hcomparand : comparand condition = comparand other := by
    funext v
    simp only [comparand, hordering]
  have hdecide : decideJump condition = decideJump other := by
    funext left right target
    simp only [decideJump, hcompare]
  simp only [execute, branch, hcomparand, hdecide]

end Exec

/-! ## Performing branches -/

namespace Machine

/-- The machine goes on without the operands of a branch: at the target if the branch's
condition holds, and behind the branch if it does not. -/
inductive Branches (machine : Machine) (frame : Frame) (callers : List Frame) (rest : OperandStack) (target : Int)
    (holds : Prop) : StepResult → Prop
  | jumps : holds → Branches machine frame callers rest target holds
      (.next .stay (machine.withFrames ({ frame with stack := rest, pc := frame.pc.jump (.int target) } :: callers)))
  | passes : ¬holds → Branches machine frame callers rest target holds
      (.next .stay (machine.withFrames ({ frame with stack := rest, pc := frame.pc.advance (.int 1) } :: callers)))

variable {machine : Machine} {frame : Frame} {callers : List Frame} {i : Instruction} {condition : Condition}
  {target : Int} {rest : OperandStack}

theorem perform_of_branchTo {taken : Bool} (hframes : machine.state.frames = frame :: callers)
    (h : execute i (machine.activation frame) = .ok (branchTo taken target) ((machine.activation frame).withStack rest)) :
    machine.perform i = .next .stay
      (machine.withFrames ({ frame with stack := rest, pc := frame.pc.branched taken target } :: callers)) := by
  rw [perform_of_ok hframes h, branchTo_apply]
  rfl

/-- Operands that can be compared are compared, the one pushed earlier with the one pushed later. -/
theorem branches_of_compare {left right : Value} {x y : Option Number} {taken : Bool} {holds : Prop}
    (hframes : machine.state.frames = frame :: callers) (hstack : frame.stack = right :: left :: rest)
    (hx : Compares condition left x) (hy : Compares condition right y)
    (hcompare : condition.compare x y frame.pc.text = .ok taken) (htaken : taken = true ↔ holds) :
    machine.Branches frame callers rest target holds (machine.perform (.branch condition target)) := by
  rw [perform_of_branchTo hframes (Exec.execute_branch hstack hx hy hcompare)]
  cases taken with
  | true => exact .jumps (htaken.1 rfl)
  | false => exact .passes fun hholds => Bool.false_ne_true (htaken.2 hholds)

/-- The branch with one operand is the branch that has what stands for zero on top of it. -/
theorem perform_branchZero {v zero : Value} {x : Option Number} (hframes : machine.state.frames = frame :: callers)
    (hstack : frame.stack = v :: rest) (hx : Compares condition v x) (hzero : Compares condition zero (zeroFor v)) :
    machine.perform (.branchZero condition target) =
      (machine.withFrames (frame.push zero :: callers)).perform (.branch condition target) := by
  -- The message of a failed comparison names the place, but this one does not fail.
  obtain ⟨taken, hcompare⟩ := Condition.compare_of_compares hx hzero
  have hpushed : (frame.push zero).stack = zero :: v :: rest := congrArg _ hstack
  rw [perform_of_branchTo hframes (Exec.execute_branchZero hstack hx (hcompare _)),
    perform_of_branchTo rfl (Exec.execute_branch hpushed hx hzero (hcompare _))]
  rfl

/-- What a machine does with the branches on a condition: with two int-like operands or two references,
and with one, for which the branch on two stands in. -/
structure Branching (machine : Machine) (frame : Frame) (callers : List Frame) (condition : Condition) (target : Int) :
    Prop where
  numbers : ∀ left right rest a b, frame.stack = right :: left :: rest → left.toInt? = some a → right.toInt? = some b →
    machine.Branches frame callers rest target (condition.Relates a b) (machine.perform (.branch condition target)) ∧
      machine.Branches frame callers rest target (¬condition.Relates a b)
        (machine.perform (.branch condition.opposite target))
  references : ∀ a b rest, frame.stack = .reference b :: .reference a :: rest → condition.isOrdering = false →
    machine.Branches frame callers rest target (condition.Identifies a b) (machine.perform (.branch condition target))
  unordered : ∀ a b rest, frame.stack = .reference b :: .reference a :: rest → condition.isOrdering = true →
    ∃ fault : Fault, fault.label = "TypeAssertionError" ∧ machine.perform (.branch condition target) =
      .fault fault (machine.withFrames ({ frame with stack := .reference a :: rest } :: callers))
  zero : ∀ v rest a, frame.stack = v :: rest → v.toInt? = some a →
    machine.perform (.branchZero condition target) =
      (machine.withFrames (frame.push (.int 0) :: callers)).perform (.branch condition target)
  null : ∀ ref rest, frame.stack = .reference ref :: rest → condition.isOrdering = false →
    machine.perform (.branchZero condition target) =
      (machine.withFrames (frame.push .null :: callers)).perform (.branch condition target)
  unorderedNull : ∀ ref rest, frame.stack = .reference ref :: rest → condition.isOrdering = true →
    ∃ fault : Fault, fault.label = "TypeAssertionError" ∧
      machine.perform (.branchZero condition target) =
        .fault fault (machine.withFrames ({ frame with stack := rest } :: callers)) ∧
      (machine.withFrames (frame.push .null :: callers)).perform (.branch condition target) =
        .fault fault (machine.withFrames (frame :: callers))

theorem branching (hframes : machine.state.frames = frame :: callers) (condition : Condition) (target : Int) :
    machine.Branching frame callers condition target where
  numbers left right rest a b hstack ha hb := by
    refine ⟨branches_of_compare hframes hstack (.scalar ha) (.scalar hb) (condition.compare_some _ _ _)
      Condition.holds_int, branches_of_compare hframes hstack (.scalar ha) (.scalar hb)
      (condition.opposite.compare_some _ _ _) ?_⟩
    exact Condition.holds_int.trans Condition.opposite_relates
  references a b rest hstack hordering :=
    branches_of_compare hframes hstack (.reference a hordering) (.reference b hordering)
      (Condition.compare_of_identity hordering a b _) (Condition.ofIdentity_iff hordering)
  unordered a b rest hstack hordering :=
    ⟨_, rfl, perform_of_error hframes (Exec.execute_branch_reference hordering hstack)⟩
  zero v rest a hstack ha := by
    have hzero : zeroFor v = some (.int 0) := by
      cases v with
      | reference ref => cases ha
      | _ => rfl
    exact perform_branchZero hframes hstack (.scalar ha) (hzero ▸ .scalar rfl)
  null ref rest hstack hordering :=
    perform_branchZero hframes hstack (.reference ref hordering) (.reference none hordering)
  unorderedNull ref rest hstack hordering := by
    have hpushed : (machine.withFrames (frame.push .null :: callers)).state.frames = frame.push .null :: callers := rfl
    have hraised : (machine.withFrames (frame.push .null :: callers)).perform (.branch condition target) = _ :=
      perform_of_error hpushed (Exec.execute_branch_reference hordering rfl)
    exact ⟨_, rfl, perform_of_error hframes (Exec.execute_branchZero_reference hordering hstack), hraised⟩

end Machine

open Condition in
/-- A step that finds a branch performs it. With two int-like operands it goes to its target if and
only if the numbers are in the order that its condition asks for, and the branch on the opposite
condition does so if and only if they are not; with two references it compares their keys, and fails
if its condition asks for an order. One operand is compared as if a zero or a null had been pushed
behind it. -/
theorem branches_compare_operands {machine : Machine} {frame : Frame} {callers : List Frame}
    (hframes : machine.state.frames = frame :: callers) (condition : Condition) (target : Int) :
    (∀ i store, machine.At frame callers i store → step machine = Machine.perform i { machine with store }) ∧
      machine.Branching frame callers condition target ∧
      machine.perform (.branch .is target) = machine.perform (.branch .eq target) ∧
      machine.perform (.branch .isnot target) = machine.perform (.branch .ne target) := by
  refine ⟨fun i store hat => hat.step_eq_perform, Machine.branching hframes condition target, ?_, ?_⟩
  · have his : ∀ x y site, compare .is x y site = compare .eq x y site := by
      intro x y site
      cases x <;> cases y <;> rfl
    simp only [Machine.perform, Exec.execute_branch_congr his rfl]
  · have hisnot : ∀ x y site, compare .isnot x y site = compare .ne x y site := by
      intro x y site
      cases x <;> cases y <;> rfl
    simp only [Machine.perform, Exec.execute_branch_congr hisnot rfl]

namespace Sample

def compareTwo : MethodId := ⟨"Sample", "compareTwo", [], none⟩

/-- A machine that is about to compare operands, the one pushed last first. -/
def comparing (operands : OperandStack) : Machine :=
  ⟨⟨.empty, [⟨.start compareTwo, [], operands⟩], []⟩, .ofImage (.registry .empty)⟩

end Sample

open Sample in
/-- 3 was pushed before the letter, which is the number 97; and 97 is not less than zero. -/
theorem three_is_less_than_letter :
    ∃ frame, (comparing [.char 97, .int 3]).state.frames = [frame] ∧
      (comparing [.char 97, .int 3]).Branching frame [] .lt 9 ∧
      (∃ after, (comparing [.char 97, .int 3]).perform (.branch .lt 9) = .next .stay after ∧
        after.state.frames = [⟨⟨compareTwo, .int 9⟩, [], []⟩]) ∧
      ∃ after, (comparing [.char 97, .int 3]).perform (.branchZero .lt 9) = .next .stay after ∧
        after.state.frames = [⟨⟨compareTwo, .int 1⟩, [], [.int 3]⟩] := by
  have hframes : (comparing [.char 97, .int 3]).state.frames = [⟨.start compareTwo, [], [.char 97, .int 3]⟩] := rfl
  obtain ⟨-, hbranching, -⟩ := branches_compare_operands hframes .lt 9
  exact ⟨_, hframes, hbranching, ⟨_, rfl, rfl⟩, _, hbranching.zero _ _ 97 rfl rfl, rfl⟩

end Bytecode
