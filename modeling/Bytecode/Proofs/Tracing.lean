import Bytecode.Proofs.Independence
/-!
# Traces change nothing and tell the truth

A traced run fetches each instruction ahead of the step to show it. `announce_silent`
says that the step is the same afterwards, or the fetch has met the step's own fault, so
a run reports and counts the same whether it is traced or not. The lines that show a step
are told from all others by how they begin (`isStepLine`); those that a run adds are of
the machines that it passes through, one for each completed step and at most one more,
for a step that fails (`Shown`).
-/
namespace Bytecode

/-! ## Lines that show a step -/

/-- Whether a line of a trace is of the kind shown before a step. -/
def isStepLine (line : Text) : Bool := (traceLead ++ Text.ofString "PC=").isPrefixOf line

/-- The lines of a trace that show steps. -/
def stepLines (trace : Array Text) : List Text := trace.toList.filter isStepLine

theorem isStepLine_lead (line : Text) : isStepLine (traceLead ++ line) = (Text.ofString "PC=").isPrefixOf line := by
  unfold isStepLine
  rw [Bool.eq_iff_iff, List.isPrefixOf_iff_prefix, List.isPrefixOf_iff_prefix, List.prefix_append_right_inj]

theorem isStepLine_stepLine (frame : Frame) (i : Instruction) :
    isStepLine (traceLead ++ Progress.stepLine frame i) = true := by
  rw [isStepLine_lead, List.isPrefixOf_iff_prefix]
  simp only [Progress.stepLine, List.append_assoc]
  exact List.prefix_append _ _

theorem isStepLine_depthLine {verb : Text} (hverb : verb = "Entered" ∨ verb = "Returned to") (state : State) (depth : Nat) :
    isStepLine (traceLead ++ Progress.depthLine verb state depth) = false := by
  rw [isStepLine_lead]
  rcases hverb with rfl | rfl <;> rfl

theorem isStepLine_haltLine (outcome : Outcome) (steps : Nat) :
    isStepLine (traceLead ++ Progress.haltLine outcome steps) = false := by
  rw [isStepLine_lead]
  rfl

theorem isStepLine_heapLine (heap : Heap) : isStepLine (traceLead ++ (Text.ofString "Heap: " ++ heap.text)) = false := by
  rw [isStepLine_lead]
  rfl

theorem isStepLine_budgetLine (maxSteps : Number) :
    isStepLine (traceLead ++ Interpreter.budgetLine maxSteps) = false := by
  rw [isStepLine_lead]
  rfl

theorem isStepLine_initialLines {state : State} {line : Text} (h : line ∈ Interpreter.initialLines state) :
    isStepLine line = false := by
  obtain ⟨frame, -, rfl⟩ := Array.mem_map.1 h
  rw [List.append_assoc, isStepLine_lead]
  rfl

/-! ## What a round adds -/

namespace Progress

/-- Lines of other kinds do not count. -/
theorem stepLines_note {line : Unit → Text} (h : isStepLine (traceLead ++ line ()) = false) (p : Progress) :
    stepLines (p.note line).trace = stepLines p.trace := by
  unfold note
  split
  · simp [stepLines, h]
  · rfl

theorem traced_note (line : Unit → Text) (p : Progress) : (p.note line).traced = p.traced := by
  unfold note
  split <;> rfl

theorem traced_advance (move : Move) (machine : Machine) (p : Progress) :
    (p.advance move machine).traced = p.traced := by
  have hmove : ((p.completed machine).observeMove move).traced = p.traced := by
    cases move with
    | stay => rfl
    | enter => exact traced_note _ _
    | leave => exact traced_note _ _
  unfold advance observeHeap
  simp only []
  split
  · exact hmove
  · exact (traced_note _ _).trans hmove

theorem stepLines_advance (move : Move) (machine : Machine) (p : Progress) :
    stepLines (p.advance move machine).trace = stepLines p.trace := by
  have hmove : stepLines ((p.completed machine).observeMove move).trace = stepLines p.trace := by
    cases move with
    | stay => rfl
    | enter => exact stepLines_note (isStepLine_depthLine (.inl rfl) _ _) _
    | leave => exact stepLines_note (isStepLine_depthLine (.inr rfl) _ _) _
  unfold advance observeHeap
  simp only []
  split
  · exact hmove
  · exact (stepLines_note (isStepLine_heapLine _) _).trans hmove

theorem stepLines_halted (outcome : Outcome) (machine : Machine) (p : Progress) :
    stepLines (p.halted outcome machine).trace = stepLines p.trace :=
  stepLines_note (isStepLine_haltLine _ _) _

end Progress

/-- The line shows the program counter and the operands of the innermost frame, and the instruction that is
fetched there. -/
def Machine.Shows (machine : Machine) (line : Text) : Prop :=
  ∃ frame callers i store, machine.At frame callers i store ∧ line = traceLead ++ Progress.stepLine frame i

/-- Announcing the next instruction shows it, unless it cannot be fetched. -/
theorem announce_shows {p : Progress} (htraced : p.traced = true) :
    match Progress.announce p with
    | .ok () q => q.traced = true ∧ ∃ line, p.machine.Shows line ∧ stepLines q.trace = stepLines p.trace ++ [line]
    | .error _ q => stepLines q.trace = stepLines p.trace := by
  simp only [Progress.announce, htraced, if_true]
  cases hframes : p.machine.state.frames with
  | nil => rfl
  | cons frame callers =>
    simp only []
    cases hfetch : Store.fetch frame.pc p.machine.store with
    | error fault store => rfl
    | ok i store =>
      refine ⟨Progress.traced_note _ _, _, ⟨frame, callers, i, store, ⟨hframes, hfetch⟩, rfl⟩, ?_⟩
      simp [Progress.note, stepLines, isStepLine_stepLine]

/-! ## What a run adds -/

/-- The lines that show so many steps from a machine: one for each step that completes, in order, and
then at most one for a step that fails. -/
inductive Shown : Machine → Nat → List Text → Prop
  | done {machine} : Shown machine 0 []
  | fails {machine line fault left} : machine.Shows line → step machine = .fault fault left → Shown machine 0 [line]
  | halts {machine line outcome returned left} : machine.Shows line → step machine = .halt outcome returned left →
      Shown machine 1 [line]
  | goesOn {machine line move next steps lines} : machine.Shows line → step machine = .next move next →
      Shown next steps lines → Shown machine (steps + 1) (line :: lines)

theorem run_shows (budget : Nat) {p : Progress} (htraced : p.traced = true) : ∃ steps lines,
    Shown p.machine steps lines ∧ (run budget p).2.stats.steps = p.stats.steps + steps ∧
      stepLines (run budget p).2.trace = stepLines p.trace ++ lines := by
  induction budget generalizing p with
  | zero => exact ⟨0, [], .done, rfl, (List.append_nil _).symm⟩
  | succ budget ih =>
    have hshows := announce_shows htraced
    simp only [run]
    rcases announce_silent p with ⟨q, hq, hstats, hstep⟩ | ⟨fault, q, hq, hstats, hstep⟩
    · rw [hq] at hshows ⊢
      obtain ⟨hqtraced, line, hline, hlines⟩ := hshows
      rw [← hstats]
      simp only []
      cases hresult : step q.machine with
      | next move machine =>
        obtain ⟨steps, lines, hshown, hsteps, hrest⟩ := ih ((Progress.traced_advance move machine q).trans hqtraced)
        rw [Progress.machine_advance] at hshown
        rw [Progress.stats_advance] at hsteps
        rw [Progress.stepLines_advance, hlines, List.append_assoc] at hrest
        refine ⟨steps + 1, line :: lines, .goesOn hline (hstep.symm.trans hresult) hshown, ?_, hrest⟩
        rw [hsteps, Statistics.next, Nat.add_assoc, Nat.add_comm 1]
      | halt outcome returned machine =>
        refine ⟨1, [line], .halts hline (hstep.symm.trans hresult), ?_, ?_⟩
        · exact congrArg Statistics.steps (Progress.stats_halted outcome machine q)
        · exact (Progress.stepLines_halted outcome machine q).trans hlines
      | fault fault machine => exact ⟨0, [line], .fails hline (hstep.symm.trans hresult), rfl, hlines⟩
    · -- The instruction cannot be fetched, which is the step's fault too.
      rw [hq] at hshows ⊢
      exact ⟨0, [], .done, congrArg Statistics.steps hstats, hshows.trans (List.append_nil _).symm⟩

/-! ## Interpreters -/

namespace Interpreter

theorem stepLines_note {lines : Array Text} {state : State} (h : ∀ line ∈ lines, line ∈ initialLines state)
    (interpreter : Interpreter) : stepLines (interpreter.note lines).trace = stepLines interpreter.trace := by
  have hnone : lines.toList.filter isStepLine = [] := by
    refine List.filter_eq_nil_iff.2 fun line hline => ?_
    rw [isStepLine_initialLines (h line (Array.mem_toList_iff.1 hline))]
    exact Bool.false_ne_true
  unfold note
  split
  · simp [stepLines, hnone]
  · rfl

theorem traced_note (interpreter : Interpreter) (lines : Array Text) :
    (interpreter.note lines).traced = interpreter.traced := by
  unfold note
  split <;> rfl

theorem stepLines_execute (interpreter : Interpreter) (state : State) :
    stepLines (interpreter.execute state).2.trace =
      stepLines (Bytecode.run interpreter.maxSteps.countBelow (interpreter.begun state)).2.trace := by
  simp only [execute, drive, begun, machine]
  split
  · rename_i p hrun
    rw [hrun]
    exact Progress.stepLines_note (isStepLine_budgetLine _) p
  · rfl

/-- What a traced interpreter adds to its trace shows as many steps as it counts. -/
theorem execute_shows {interpreter : Interpreter} (htraced : interpreter.traced = true) (state : State) : ∃ lines,
    Shown (interpreter.machine state) (interpreter.execute state).2.stats.steps lines ∧
      stepLines (interpreter.execute state).2.trace = stepLines interpreter.trace ++ lines := by
  obtain ⟨-, hstats, -, -⟩ := execute_eq_run interpreter state
  have hbegun : (interpreter.begun state).traced = true := htraced
  obtain ⟨steps, lines, hshown, hsteps, hlines⟩ := run_shows interpreter.maxSteps.countBelow hbegun
  refine ⟨lines, ?_, (interpreter.stepLines_execute state).trans hlines⟩
  rw [hstats, hsteps]
  -- Counts of a run begin at nothing.
  exact (Nat.zero_add steps).symm ▸ hshown

end Interpreter

namespace Job

/-- What a traced interpreter adds to its trace in a job shows the steps of the state that is executed. -/
theorem run_shows (job : Job) {interpreter : Interpreter} (htraced : interpreter.traced = true) {state : State}
    (hstate : job.initial = .ok state) : ∃ lines,
    Shown (interpreter.machine state) (job.run interpreter).2.stats.steps lines ∧
      stepLines (job.run interpreter).2.trace = stepLines interpreter.trace ++ lines := by
  rcases job.run_cases with ⟨fault, hinitial, -⟩ | ⟨state', noted, hinitial, hnoted, hrun⟩
  · rw [hinitial] at hstate
    cases hstate
  · obtain rfl : state' = state := by
      rw [hinitial] at hstate
      exact Except.ok.inj hstate
    have hstill : (interpreter.note noted).traced = true := (interpreter.traced_note noted).trans htraced
    obtain ⟨lines, hshown, htrace⟩ := Interpreter.execute_shows hstill state'
    rw [Interpreter.stepLines_note hnoted] at htrace
    rw [Interpreter.machine_note] at hshown
    rw [hrun]
    exact ⟨lines, hshown, htrace⟩

end Job

end Bytecode
