import Bytecode.Proofs.Budget
import Bytecode.Proofs.CallChain
/-!
# Counts tell the truth

The counts of a run are not taken from the machine at its end: the call depth follows the
moves of the steps, the heap is looked at after steps that go on, and a step that fails is
not counted at all. We prove that they are right nevertheless, however the run ends. The
reason is in what a step can do: it moves by one frame (`shift_of_step`), and one that
does not go on leaves the heap as it is (`halted_sizes`, `faulted_onlyPopped`). Counts are
compared with the `trail` of states, which is made by steps alone.
-/
namespace Bytecode

/-! ## The states that are passed -/

/-- The states that a machine passes in so many steps: the one it begins in, and the one after each step
that completes, also if it is the last one. -/
def trail : Nat → Machine → List State
  | 0, machine => [machine.state]
  | budget + 1, machine => machine.state :: match step machine with
    | .next _ next => trail budget next
    | .halt _ _ left => [left.state]
    | .fault _ _ => []

/-- The greatest depth among the states, and not less than the one given. -/
def deepest (states : List State) (depth : Nat) : Nat := (states.map State.depth).foldl max depth

theorem deepest_cons (state : State) (states : List State) (depth : Nat) :
    deepest (state :: states) depth = deepest states (max depth state.depth) := rfl

theorem exists_trail_eq (budget : Nat) (machine : Machine) : ∃ states, trail budget machine = machine.state :: states := by
  cases budget with
  | zero => exact ⟨[], rfl⟩
  | succ budget => exact ⟨_, rfl⟩

/-- It does not matter whether the depth of the first state is looked at before. -/
theorem deepest_trail (budget : Nat) (machine : Machine) (depth : Nat) :
    deepest (trail budget machine) (max depth machine.state.depth) = deepest (trail budget machine) depth := by
  obtain ⟨states, hstates⟩ := exists_trail_eq budget machine
  rw [hstates, deepest_cons, deepest_cons, Nat.max_assoc, Nat.max_self]

/-! ## What a step does to depth and heap -/

/-- A move says by how much the depth changes. -/
theorem depth_of_step {machine next : Machine} {move : Move} (h : step machine = .next move next) :
    next.state.depth = move.depth machine.state.depth := by
  have hshift := shift_of_step h
  unfold State.depth
  generalize next.state.frames = frames at hshift
  cases hshift with
  | stay hframes _ => simp [hframes, Move.depth]
  | enter hat _ => simp [hat.frames, Move.depth]
  | leave hframes => simp [hframes, Move.depth]

theorem Move.maxDepth_eq {stats : Statistics} (h : stats.callDepth ≤ stats.maxCallDepth) (move : Move) :
    move.maxDepth stats = max stats.maxCallDepth (move.depth stats.callDepth) := by
  cases move with
  | stay => exact (Nat.max_eq_left h).symm
  | enter => rfl
  | leave => exact (Nat.max_eq_left (Nat.le_trans (Nat.sub_le _ _) h)).symm

/-- A step that ends the program leaves the heap as it is, and no more frames than there were. -/
theorem halted_sizes {machine left : Machine} {outcome : Outcome} {returned : Option Value}
    (h : step machine = .halt outcome returned left) :
    left.state.heap = machine.state.heap ∧ left.state.depth ≤ machine.state.depth := by
  rcases halted_cases h with ⟨-, frame, -, hleft⟩ | ⟨-, -, -, hpopped⟩
  · rw [hleft]
    exact ⟨rfl, Nat.zero_le _⟩
  · exact ⟨hpopped.heap_eq, Nat.le_of_eq hpopped.depth_eq⟩

/-! ## Runs -/

/-- The counts are those of the state, and the greatest depth is not less than its depth. -/
structure Statistics.Counts (stats : Statistics) (state : State) : Prop where
  depth : stats.callDepth = state.depth
  le_max : state.depth ≤ stats.maxCallDepth
  heap : stats.heapSize = state.heap.size

namespace Statistics.Counts

variable {stats : Statistics} {machine : Machine}

theorem next (h : stats.Counts machine.state) {move : Move} {next : Machine} (hstep : step machine = .next move next) :
    (stats.next move next).Counts next.state ∧
      (stats.next move next).maxCallDepth = max stats.maxCallDepth next.state.depth := by
  have hdepth : (stats.next move next).callDepth = next.state.depth := by
    rw [depth_of_step hstep, ← h.depth]
    rfl
  have hmax : (stats.next move next).maxCallDepth = max stats.maxCallDepth next.state.depth := by
    rw [← hdepth]
    exact move.maxDepth_eq (h.depth ▸ h.le_max)
  exact ⟨⟨hdepth, hmax ▸ Nat.le_max_right _ _, rfl⟩, hmax⟩

theorem last (h : stats.Counts machine.state) {outcome : Outcome} {returned : Option Value} {left : Machine}
    (hstep : step machine = .halt outcome returned left) : (stats.last left).Counts left.state := by
  obtain ⟨hheap, hdepth⟩ := halted_sizes hstep
  exact ⟨rfl, Nat.le_trans hdepth h.le_max, hheap ▸ h.heap⟩

/-- What a failing step has taken are operands, so the counts before it are still right. -/
theorem failed (h : stats.Counts machine.state) {fault : Fault} {left : Machine}
    (hstep : step machine = .fault fault left) : stats.Counts left.state := by
  have hpopped := faulted_onlyPopped hstep
  refine ⟨?_, ?_, ?_⟩
  · rw [hpopped.depth_eq]
    exact h.depth
  · rw [hpopped.depth_eq]
    exact h.le_max
  · rw [hpopped.heap_eq]
    exact h.heap

end Statistics.Counts

/-- The states that a run passes through are those of the steps. -/
theorem visited_eq_trail (budget : Nat) (p : Progress) : visited budget p = trail budget p.machine := by
  induction budget generalizing p with
  | zero => rfl
  | succ budget ih =>
    rcases round_cases p with ⟨move, q, hrun, hstep, -⟩ | ⟨outcome, returned, q, hrun, hstep, -⟩ |
      ⟨fault, q, hrun, hstep, -⟩ <;> simp only [visited, trail, hrun, hstep]
    rw [ih]

/-- A run counts its steps, keeps the greatest depth of the states it passes and leaves right counts. -/
theorem run_counts (budget : Nat) {p : Progress} (h : p.stats.Counts p.machine.state) :
    let q := (run budget p).2
    q.stats.steps + 1 = p.stats.steps + (trail budget p.machine).length ∧
      q.stats.maxCallDepth = deepest (trail budget p.machine) p.stats.maxCallDepth ∧
      q.stats.Counts q.machine.state := by
  induction budget generalizing p with
  | zero => exact ⟨rfl, (Nat.max_eq_left h.le_max).symm, h⟩
  | succ budget ih =>
    rw [run_succ]
    simp only [trail, deepest_cons, Nat.max_eq_left h.le_max]
    rcases round_cases p with ⟨move, q, hrun, hstep, hstats⟩ | ⟨outcome, returned, q, hrun, hstep, hstats⟩ |
      ⟨fault, q, hrun, hstep, hstats⟩ <;> rw [hrun, hstep]
    · obtain ⟨hcounts, hmax⟩ := h.next hstep
      rw [← hstats] at hcounts hmax
      obtain ⟨hsteps, hrest, hleft⟩ := ih hcounts
      rw [hmax, deepest_trail] at hrest
      rw [hstats, Statistics.next] at hsteps
      refine ⟨?_, hrest, hleft⟩
      simp only [List.length_cons] at hsteps ⊢
      omega
    · have hcounts := h.last hstep
      have hdepth := hcounts.le_max
      rw [hstats]
      exact ⟨rfl, (Nat.max_eq_left hdepth).symm, hcounts⟩
    · rw [hstats]
      exact ⟨rfl, rfl, h.failed hstep⟩

/-! ## Reports -/

theorem Reaches.first_frames_ne_nil {first last : Machine} {k : Nat} (h : Reaches first k last)
    (hlast : last.state.frames ≠ []) : first.state.frames ≠ [] := by
  induction h with
  | refl => exact hlast
  | step _ hstep ih =>
    obtain ⟨frame, callers, i, store, hat⟩ := at_of_next hstep
    exact ih (hat.frames ▸ List.cons_ne_nil _ _)

theorem Outcome.text_eq_ok_iff (outcome : Outcome) : outcome.text = "ok" ↔ outcome = .ok := by
  cases outcome <;> decide

/-- A program ends with `ok` if its last frame is taken away; else frames are left and nothing is returned. -/
theorem Halts.ok_iff {first left : Machine} {k : Nat} {outcome : Outcome} {returned : Option Value}
    (h : Halts first k outcome returned left) :
    (outcome = .ok ↔ first.state.frames ≠ [] ∧ left.state.frames = []) ∧ (returned ≠ none → outcome = .ok) := by
  obtain ⟨_, last, -, hreaches, hlast⟩ := h
  rcases halted_cases hlast with ⟨rfl, frame, hframes, hleft⟩ | ⟨hne, rfl, hframes, hpopped⟩
  · have hbefore : last.state.frames ≠ [] := hframes ▸ List.cons_ne_nil _ _
    have hafter : left.state.frames = [] := by rw [hleft]
    exact ⟨⟨fun _ => ⟨hreaches.first_frames_ne_nil hbefore, hafter⟩, fun _ => rfl⟩, fun _ => rfl⟩
  · have hkept : left.state.frames ≠ [] := by
      intro hnil
      have hdepth := hpopped.depth_eq
      rw [State.depth, State.depth, hnil] at hdepth
      exact hframes (List.length_eq_zero_iff.1 hdepth.symm)
    exact ⟨⟨fun hok => absurd hok hne, fun hnil => absurd hnil.2 hkept⟩, fun hreturned => absurd rfl hreturned⟩

namespace Interpreter

/-- The report of a run tells its steps, and whether it has emptied the call stack. -/
theorem report_tells {interpreter : Interpreter} {state : State} {r : Report}
    (h : (interpreter.execute state).1 = .ok r) :
    r.steps = (interpreter.execute state).2.stats.steps ∧
      (r.outcome = "ok" ↔ state.frames ≠ [] ∧ (interpreter.left state).frames = []) ∧
      (r.returned ≠ none → r.outcome = "ok") := by
  obtain ⟨ending, q, hends, hreport, hstats, hleft⟩ := execute_endsBy interpreter state
  rw [left, hleft, hstats]
  rw [hreport] at h
  cases ending with
  | halted outcome returned =>
    cases h
    obtain ⟨k, -, hhalts, -⟩ := hends
    obtain ⟨hok, hreturned⟩ := hhalts.ok_iff
    exact ⟨rfl, outcome.text_eq_ok_iff.trans hok, fun hne => outcome.text_eq_ok_iff.2 (hreturned hne)⟩
  | exhausted =>
    cases h
    -- As long as steps go on there are frames.
    have hstar : Text.ofString "*" ≠ Text.ofString "ok" := by decide
    refine ⟨rfl, ⟨fun hok => absurd hok hstar, fun hemptied => ?_⟩, fun hne => absurd rfl hne⟩
    exact absurd hemptied.2 (hends.1.frames_ne_nil hemptied.1)
  | faulted fault => cases h

/-- However a run ends: the states that it passes are those of the steps, and its steps are those that completed. Its
depth and its heap are those of the state as it was left, and its greatest depth is that of the states passed. The
outcome is `ok` exactly if the run has emptied the call stack, and only then a value may be returned. -/
theorem counts_tell_truth (interpreter : Interpreter) (state : State) :
    let executed := interpreter.execute state
    let passed := trail interpreter.maxSteps.countBelow (interpreter.machine state)
    interpreter.visited state = passed ∧
      executed.2.stats.steps + 1 = passed.length ∧
      executed.2.stats.callDepth = (interpreter.left state).depth ∧
      (passed.map State.depth).max? = some executed.2.stats.maxCallDepth ∧
      executed.2.stats.heapSize = (interpreter.left state).heap.size ∧
      ∀ r, executed.1 = .ok r →
        r.steps = executed.2.stats.steps ∧
        (r.outcome = "ok" ↔ state.frames ≠ [] ∧ (interpreter.left state).frames = []) ∧
        (r.returned ≠ none → r.outcome = "ok") := by
  intro executed passed
  obtain ⟨-, hstats, -, hleft⟩ := execute_eq_run interpreter state
  have hbegun : (interpreter.begun state).stats.Counts state := ⟨rfl, Nat.le_refl _, rfl⟩
  obtain ⟨hsteps, hmax, hcounted⟩ := run_counts interpreter.maxSteps.countBelow hbegun
  rw [← hstats] at hsteps hmax
  refine ⟨visited_eq_trail _ _, hsteps.trans (Nat.zero_add _), ?_, ?_, ?_, fun r => report_tells⟩
  · rw [hstats, hleft]
    exact hcounted.depth
  · obtain ⟨states, hstates⟩ : ∃ states, passed = state :: states := exists_trail_eq _ (interpreter.machine state)
    have hdeepest : executed.2.stats.maxCallDepth = deepest passed state.depth := hmax
    rw [hdeepest, hstates, deepest_cons, Nat.max_self]
    exact List.max?_cons'
  · rw [hstats, hleft]
    exact hcounted.heap

end Interpreter

end Bytecode
