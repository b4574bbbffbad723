import Bytecode.Proofs.Reach
import Bytecode.Interpreter
/-!
# Runs as sequences of rounds

One round of a run announces the next instruction, takes a step and counts it.
`run_add` cuts a run into shorter ones, so that what one round does (`run_one`)
is all there is to know: announcing fetches what the step would fetch, and
neither the machine nor the counts show whether there is a trace.
-/
namespace Bytecode

/-- A run of some rounds and then some more. -/
theorem run_add (n m : Nat) (p : Progress) :
    run (n + m) p = match run n p with
      | (.exhausted, q) => run m q
      | ended => ended := by
  induction n generalizing p with
  | zero => rw [Nat.zero_add]; rfl
  | succ n ih =>
    rw [Nat.add_right_comm]
    simp only [run]
    cases Progress.announce p with
    | error fault q => rfl
    | ok u q =>
      simp only []
      cases step q.machine with
      | next move machine => exact ih _
      | halt outcome returned machine => rfl
      | fault fault machine => rfl

theorem run_succ (n : Nat) (p : Progress) :
    run (n + 1) p = match run 1 p with
      | (.exhausted, q) => run n q
      | ended => ended := by
  rw [Nat.add_comm]
  exact run_add 1 n p

/-! ## One round -/

/-- The call depth after a step. -/
def Move.depth (depth : Nat) : Move → Nat
  | stay => depth
  | enter => depth + 1
  | leave => depth - 1

/-- The greatest call depth after a step. -/
def Move.maxDepth (stats : Statistics) : Move → Nat
  | enter => max stats.maxCallDepth (stats.callDepth + 1)
  | _ => stats.maxCallDepth

/-- The counts after a step that goes on. -/
def Statistics.next (stats : Statistics) (move : Move) (machine : Machine) : Statistics where
  steps := stats.steps + 1
  callDepth := move.depth stats.callDepth
  maxCallDepth := move.maxDepth stats
  heapSize := machine.state.heap.size

/-- The counts after a step that ends the program. -/
def Statistics.last (stats : Statistics) (machine : Machine) : Statistics :=
  { stats with steps := stats.steps + 1, callDepth := machine.state.depth }

/-- What a round makes of the result of a step. -/
inductive Round (stats : Statistics) : StepResult → Ending × Progress → Prop
  | next {move machine q} : q.machine = machine → q.stats = stats.next move machine →
      Round stats (.next move machine) (.exhausted, q)
  | halt {outcome returned machine q} : q.machine = machine → q.stats = stats.last machine →
      Round stats (.halt outcome returned machine) (.halted outcome returned, q)
  | fault {fault machine q} : q.machine = machine → q.stats = stats →
      Round stats (.fault fault machine) (.faulted fault, q)

namespace Progress

@[simp] theorem machine_note (line : Unit → Text) (p : Progress) : (p.note line).machine = p.machine := by
  unfold note
  split <;> rfl

@[simp] theorem stats_note (line : Unit → Text) (p : Progress) : (p.note line).stats = p.stats := by
  unfold note
  split <;> rfl

theorem machine_observeMove (move : Move) (p : Progress) : (p.observeMove move).machine = p.machine := by
  cases move <;> simp [observeMove]

theorem stats_observeMove (move : Move) (p : Progress) :
    (p.observeMove move).stats = { p.stats with
      callDepth := move.depth p.stats.callDepth, maxCallDepth := move.maxDepth p.stats } := by
  cases move <;> simp [observeMove, Move.depth, Move.maxDepth]

theorem machine_observeHeap (p : Progress) : p.observeHeap.machine = p.machine := by
  unfold observeHeap
  simp only []
  split
  · rfl
  · exact machine_note _ p

theorem stats_observeHeap (p : Progress) :
    p.observeHeap.stats = { p.stats with heapSize := p.machine.state.heap.size } := by
  unfold observeHeap
  simp only []
  split
  · rename_i hsize
    rw [hsize]
  · rw [stats_note]

theorem machine_advance (move : Move) (machine : Machine) (p : Progress) :
    (p.advance move machine).machine = machine := by
  unfold advance
  rw [machine_observeHeap, machine_observeMove]
  rfl

theorem stats_advance (move : Move) (machine : Machine) (p : Progress) :
    (p.advance move machine).stats = p.stats.next move machine := by
  unfold advance
  rw [stats_observeHeap, stats_observeMove, machine_observeMove]
  rfl

theorem machine_halted (outcome : Outcome) (machine : Machine) (p : Progress) :
    (p.halted outcome machine).machine = machine := machine_note _ _

theorem stats_halted (outcome : Outcome) (machine : Machine) (p : Progress) :
    (p.halted outcome machine).stats = p.stats.last machine := stats_note _ _

end Progress

theorem Store.code_again {method : MethodId} {body : Code} {store store' : Store}
    (h : Store.code method store = .ok body store') : Store.code method store' = .ok body store' := by
  rw [code_apply] at h
  cases hget : Table.get? method.text store.methods with
  | some known =>
    rw [hget] at h
    cases h
    rw [code_apply, hget]
  | none =>
    rw [hget] at h
    cases himage : Image.code method store.image with
    | error fault image => rw [himage] at h; cases h
    | ok found image =>
      rw [himage] at h
      cases h
      rw [code_apply]
      simp only [Table.get?_insert_self]

/-- What was fetched is there at the next time, and fetching it changes nothing then. -/
theorem Store.fetch_again {pc : ProgramCounter} {i : Instruction} {store store' : Store}
    (h : Store.fetch pc store = .ok i store') : Store.fetch pc store' = .ok i store' := by
  obtain ⟨body, hbody, hi⟩ := fetch_eq_ok.1 h
  exact fetch_eq_ok.2 ⟨body, code_again hbody, hi⟩

/-- What announcing comes to: the step is as it was, or it is the fault already met. -/
theorem announce_silent (p : Progress) :
    (∃ q, Progress.announce p = .ok () q ∧ q.stats = p.stats ∧ step q.machine = step p.machine) ∨
      ∃ fault q,
        Progress.announce p = .error fault q ∧ q.stats = p.stats ∧ step p.machine = .fault fault q.machine := by
  rcases p with ⟨⟨⟨heap, frames, statics⟩, store⟩, stats, traced, trace⟩
  cases traced with
  | false => exact .inl ⟨_, rfl, rfl, rfl⟩
  | true =>
    cases frames with
    | nil => exact .inr ⟨_, _, rfl, rfl, rfl⟩
    | cons frame callers =>
      have hstep : step ⟨⟨heap, frame :: callers, statics⟩, store⟩ = _ := step_cons rfl
      unfold Progress.announce
      simp only [if_true]
      cases hfetch : Store.fetch frame.pc store with
      | error fault store' =>
        rw [hfetch] at hstep
        exact .inr ⟨fault, _, rfl, rfl, hstep⟩
      | ok i store' =>
        -- The step fetches once more, from a store that has the body now.
        refine .inl ⟨_, rfl, Progress.stats_note _ _, ?_⟩
        rw [Progress.machine_note, hstep, step_cons rfl, hfetch]
        simp only [Store.fetch_again hfetch]

/-- A round is a step and its counts. -/
theorem run_one (p : Progress) : Round p.stats (step p.machine) (run 1 p) := by
  -- A round announces its step first, which may already meet the fault.
  rcases announce_silent p with ⟨q, hq, hstats, hstep⟩ | ⟨fault, q, hq, hstats, hstep⟩
  · rw [← hstep, ← hstats]
    simp only [run, hq]
    cases step q.machine with
    | next move machine => exact .next (Progress.machine_advance ..) (Progress.stats_advance ..)
    | halt outcome returned machine => exact .halt (Progress.machine_halted ..) (Progress.stats_halted ..)
    | fault fault machine => exact .fault rfl rfl
  · rw [hstep]
    simp only [run, hq]
    exact .fault rfl hstats

/-- A round in three cases, with the step's machine as the round leaves it. -/
theorem round_cases (p : Progress) :
    (∃ move q, run 1 p = (.exhausted, q) ∧ step p.machine = .next move q.machine ∧
        q.stats = p.stats.next move q.machine) ∨
      (∃ outcome returned q, run 1 p = (.halted outcome returned, q) ∧
        step p.machine = .halt outcome returned q.machine ∧ q.stats = p.stats.last q.machine) ∨
      ∃ fault q, run 1 p = (.faulted fault, q) ∧ step p.machine = .fault fault q.machine ∧ q.stats = p.stats := by
  have hround := run_one p
  generalize step p.machine = result, run 1 p = ended at hround
  cases hround with
  | @next move _ q hmachine hstats =>
    subst hmachine
    exact .inl ⟨move, q, rfl, rfl, hstats⟩
  | @halt outcome returned _ q hmachine hstats =>
    subst hmachine
    exact .inr (.inl ⟨outcome, returned, q, rfl, rfl, hstats⟩)
  | @fault fault _ q hmachine hstats =>
    subst hmachine
    exact .inr (.inr ⟨fault, q, rfl, rfl, hstats⟩)

/-! ## Whole runs -/

theorem Reaches.cons {first next last : Machine} {move : Move} {k : Nat}
    (hstep : Bytecode.step first = .next move next) (h : Reaches next k last) : Reaches first (k + 1) last := by
  rw [Nat.add_comm]
  exact (Reaches.refl.step hstep).trans h

/-- The end of a run, in terms of steps: all of them went on, or the last one
ended the program or failed. -/
def EndsBy (first : Machine) (budget : Nat) (before : Statistics) : Ending × Progress → Prop
  | (.exhausted, q) => Reaches first budget q.machine ∧ q.stats.steps = before.steps + budget
  | (.halted outcome returned, q) =>
    ∃ k ≤ budget, Halts first k outcome returned q.machine ∧ q.stats.steps = before.steps + k
  | (.faulted fault, q) =>
    ∃ k ≤ budget, Faults first k fault q.machine ∧ q.stats.steps + 1 = before.steps + k

theorem EndsBy.cons {first next : Machine} {move : Move} {budget : Nat} {before : Statistics}
    (hstep : step first = .next move next) {result : Ending × Progress}
    (h : EndsBy next budget (before.next move next) result) : EndsBy first (budget + 1) before result := by
  rcases result with ⟨ending, q⟩
  cases ending with
  | exhausted =>
    obtain ⟨hreaches, hsteps⟩ := h
    refine ⟨hreaches.cons hstep, ?_⟩
    simp only [Statistics.next] at hsteps
    omega
  | halted outcome returned =>
    obtain ⟨k, hk, ⟨j, last, rfl, hreaches, hlast⟩, hsteps⟩ := h
    refine ⟨j + 1 + 1, by omega, ⟨j + 1, last, rfl, hreaches.cons hstep, hlast⟩, ?_⟩
    simp only [Statistics.next] at hsteps
    omega
  | faulted fault =>
    obtain ⟨k, hk, ⟨j, last, rfl, hreaches, hlast⟩, hsteps⟩ := h
    refine ⟨j + 1 + 1, by omega, ⟨j + 1, last, rfl, hreaches.cons hstep, hlast⟩, ?_⟩
    simp only [Statistics.next] at hsteps
    omega

/-- A run takes as many steps as its budget allows and the program has. -/
theorem run_endsBy (budget : Nat) (p : Progress) : EndsBy p.machine budget p.stats (run budget p) := by
  induction budget generalizing p with
  | zero => exact ⟨.refl, rfl⟩
  | succ budget ih =>
    rw [run_succ]
    rcases round_cases p with ⟨move, q, hrun, hstep, hstats⟩ | ⟨outcome, returned, q, hrun, hstep, hstats⟩ |
      ⟨fault, q, hrun, hstep, hstats⟩ <;> rw [hrun]
    · -- The rest of the run begins with the machine and the counts of this round.
      have hrest := ih q
      rw [hstats] at hrest
      exact hrest.cons hstep
    · refine ⟨1, by omega, ⟨0, p.machine, rfl, .refl, hstep⟩, ?_⟩
      rw [hstats]
      rfl
    · exact ⟨1, by omega, ⟨0, p.machine, rfl, .refl, hstep⟩, by rw [hstats]⟩

/-- What looking up declarations and fetching instructions keep true of a store is true of the one that a run leaves. -/
theorem run_store {I : Store → Prop} (hclass : ∀ className s, I s → I (final (Store.classInfo className s)))
    (hfetch : ∀ pc s, I s → I (final (Store.fetch pc s))) (budget : Nat) {p : Progress} (hp : I p.machine.store) :
    I (run budget p).2.machine.store := by
  have hstep : ∀ machine : Machine, I machine.store → I (step machine).machine.store :=
    fun machine h => step_store hclass h fun frame _ => hfetch frame.pc _ h
  have hends := run_endsBy budget p
  generalize run budget p = result at hends
  rcases result with ⟨ending, q⟩
  cases ending with
  | exhausted => exact hends.1.keeps_store hclass hfetch hp
  | halted outcome returned =>
    obtain ⟨_, -, ⟨_, last, -, hreaches, hlast⟩, -⟩ := hends
    have hleft := hstep last (hreaches.keeps_store hclass hfetch hp)
    rw [hlast] at hleft
    exact hleft
  | faulted fault =>
    obtain ⟨_, -, ⟨_, last, -, hreaches, hlast⟩, -⟩ := hends
    have hleft := hstep last (hreaches.keeps_store hclass hfetch hp)
    rw [hlast] at hleft
    exact hleft

/-! ## Two runs beside each other -/

/-- Both budgets used up, both programs ended alike, or two related faults. -/
inductive Ending.Like (F : Fault → Fault → Prop) : Ending → Ending → Prop
  | halted (outcome : Outcome) (returned : Option Value) : Like F (.halted outcome returned) (.halted outcome returned)
  | exhausted : Like F .exhausted .exhausted
  | faulted {fault fault' : Fault} : F fault fault' → Like F (.faulted fault) (.faulted fault')

theorem Ending.Like.eq {ending ending' : Ending} (h : Ending.Like Eq ending ending') : ending = ending' := by
  cases h with
  | halted outcome returned => rfl
  | exhausted => rfl
  | faulted hfault => rw [hfault]

/-- The counts after steps to one state, or ending in one, do not show from which machine they were made. -/
theorem Statistics.next_eq {machine other : Machine} (h : machine.state = other.state) (stats : Statistics) (move : Move) :
    stats.next move machine = stats.next move other := by
  simp only [next, h]

theorem Statistics.last_eq {machine other : Machine} (h : machine.state = other.state) (stats : Statistics) :
    stats.last machine = stats.last other := by
  simp only [last, h]

/-- Runs whose steps correspond end alike, in the same state and after as many steps, and with the
same counts if they begin with the same. What is known of the first machine, `I`, may depend on how
many steps are left. -/
theorem run_under {R : Store → Store → Prop} {F : Fault → Fault → Prop} {I : Nat → Machine → Prop}
    (hstep : ∀ k machine other, I (k + 1) machine → Machine.Under R [] machine other →
      StepResult.Under R F [] (step machine) (step other))
    (hnext : ∀ k machine move next, I (k + 1) machine → step machine = .next move next → I k next)
    (k : Nat) {p q : Progress} (hp : I k p.machine) (h : Machine.Under R [] p.machine q.machine) :
    Ending.Like F (run k p).1 (run k q).1 ∧ (run k p).2.machine.state = (run k q).2.machine.state ∧
      (run k p).2.stats.steps + q.stats.steps = (run k q).2.stats.steps + p.stats.steps ∧
      (p.stats = q.stats → (run k p).2.stats = (run k q).2.stats) := by
  have hstate : ∀ {machine other : Machine}, Machine.Under R [] machine other → machine.state = other.state := by
    intro machine other hunder
    rw [hunder.state]
    simp [State.above]
  induction k generalizing p q with
  | zero => exact ⟨.exhausted, hstate h, Nat.add_comm _ _, id⟩
  | succ k ih =>
    rw [run_succ, run_succ k q]
    -- Both runs make a round, and the rounds are known by the two steps alone.
    have hone := run_one p
    have htwo := run_one q
    have hboth := hstep k _ _ hp h
    have hgoes := hnext k p.machine
    generalize step p.machine = result at hboth hone hgoes
    generalize step q.machine = result' at hboth htwo
    generalize run 1 p = round at hone
    generalize run 1 q = round' at htwo
    cases hboth with
    | @next move machine other hunder =>
      cases hone with
      | @next _ _ r hm hs =>
        cases htwo with
        | @next _ _ r' hm' hs' =>
          have hr : I k r.machine := hm ▸ hgoes move machine hp rfl
          have hunder' : Machine.Under R [] r.machine r'.machine := by
            rw [hm, hm']
            exact hunder
          obtain ⟨hending, hlast, hsteps, hcounts⟩ := ih hr hunder'
          refine ⟨hending, hlast, ?_, fun hsame => hcounts ?_⟩
          · simp only [hs, hs', Statistics.next] at hsteps ⊢
            omega
          · rw [hs, hs', hsame, Statistics.next_eq (hstate hunder)]
    | halt hne hunder =>
      cases hone with
      | halt hm hs =>
        cases htwo with
        | halt hm' hs' =>
          refine ⟨.halted _ _, by rw [hm, hm']; exact hstate hunder, ?_, fun hsame => ?_⟩
          · simp only [hs, hs', Statistics.last]
            omega
          · rw [hs, hs', hsame, Statistics.last_eq (hstate hunder)]
    | finish _ hunder =>
      cases hone with
      | halt hm hs =>
        cases htwo with
        | halt hm' hs' =>
          refine ⟨.halted _ _, by rw [hm, hm']; exact hstate hunder, ?_, fun hsame => ?_⟩
          · simp only [hs, hs', Statistics.last]
            omega
          · rw [hs, hs', hsame, Statistics.last_eq (hstate hunder)]
    | fault hfault hunder =>
      cases hone with
      | fault hm hs =>
        cases htwo with
        | fault hm' hs' =>
          refine ⟨.faulted hfault, by rw [hm, hm']; exact hstate hunder, ?_, fun hsame => ?_⟩
          · simp only [hs, hs']
            omega
          · rw [hs, hs', hsame]
    -- Without callers below there is nowhere to return to.
    | resume hbase => cases hbase

/-! ## Interpreters -/

namespace Interpreter

/-- The machine in which an interpreter begins. -/
def machine (interpreter : Interpreter) (state : State) : Machine := ⟨state, .ofImage interpreter.image⟩

/-- What the interpreter's run comes to before a used-up budget is noted. -/
theorem drive_eq (interpreter : Interpreter) (state : State) :
    let result := run interpreter.maxSteps.countBelow
      (.start interpreter.traced interpreter.trace (interpreter.machine state))
    (interpreter.drive state).1 = result.1 ∧ (interpreter.drive state).2.machine = result.2.machine ∧
      (interpreter.drive state).2.stats = result.2.stats := by
  simp only [drive, machine]
  split
  · rename_i p hrun
    rw [hrun]
    exact ⟨rfl, Progress.machine_note _ p, Progress.stats_note _ p⟩
  · exact ⟨rfl, rfl, rfl⟩

/-- What an interpreter reports of a state is what its run comes to. -/
theorem execute_eq_report (interpreter : Interpreter) (state : State) :
    let result := run interpreter.maxSteps.countBelow
      (.start interpreter.traced interpreter.trace (interpreter.machine state))
    (interpreter.execute state).1 = report result.2.stats result.1 := by
  intro result
  obtain ⟨hending, -, hstats⟩ := drive_eq interpreter state
  simp only [execute, hending, hstats]
  rfl

/-- An interpreter reports how its run has ended, and keeps the counts. -/
theorem execute_endsBy (interpreter : Interpreter) (state : State) : ∃ ending q,
    EndsBy (interpreter.machine state) interpreter.maxSteps.countBelow ⟨0, state.depth, state.depth, state.heap.size⟩
      (ending, q) ∧
    (interpreter.execute state).1 = report q.stats ending ∧ (interpreter.execute state).2.stats = q.stats ∧
      (interpreter.drive state).2.machine = q.machine := by
  obtain ⟨hending, hmachine, hstats⟩ := drive_eq interpreter state
  refine ⟨_, _, run_endsBy _ (.start interpreter.traced interpreter.trace (interpreter.machine state)), ?_, ?_, hmachine⟩
  · simp only [execute, hending, hstats]
  · simp only [execute, hstats]

/-- A fault that an interpreter reports is one of a step. -/
theorem faults_of_execute {interpreter : Interpreter} {state : State} {fault : Fault}
    (h : (interpreter.execute state).1 = .error fault) :
    ∃ k left, Faults (interpreter.machine state) k fault left := by
  obtain ⟨ending, q, hends, hreport, -, -⟩ := execute_endsBy interpreter state
  rw [hreport] at h
  cases ending with
  | halted outcome returned => cases h
  | exhausted => cases h
  | faulted fault' =>
    cases h
    obtain ⟨k, -, hfaults, -⟩ := hends
    exact ⟨k, _, hfaults⟩

/-- A value that an interpreter reports is returned by a step. -/
theorem halts_of_execute {interpreter : Interpreter} {state : State} {r : Report} {v : Value}
    (h : (interpreter.execute state).1 = .ok r) (hv : v ∈ r.returned) :
    ∃ k outcome left, Halts (interpreter.machine state) k outcome (some v) left := by
  obtain ⟨ending, q, hends, hreport, -, -⟩ := execute_endsBy interpreter state
  rw [hreport] at h
  cases ending with
  | halted outcome returned =>
    cases h
    obtain rfl : returned = some v := hv
    obtain ⟨k, -, hhalts, -⟩ := hends
    exact ⟨k, outcome, _, hhalts⟩
  | exhausted =>
    cases h
    cases hv
  | faulted fault => cases h

/-- Noting lines changes neither the program nor the budget. -/
theorem setup_note (interpreter : Interpreter) (lines : Array Text) :
    (interpreter.note lines).image = interpreter.image ∧ (interpreter.note lines).maxSteps = interpreter.maxSteps := by
  unfold note
  split <;> exact ⟨rfl, rfl⟩

/-- Noting lines does not change where a run begins. -/
theorem machine_note (interpreter : Interpreter) (lines : Array Text) (state : State) :
    (interpreter.note lines).machine state = interpreter.machine state := by
  unfold note
  split <;> rfl

end Interpreter

end Bytecode
