import Bytecode.Proofs.Rounds
/-!
# Budgets

The budget of a run decides when it stops and nothing else. A longer one goes
through the same states first (`visited_mono`), and what a used-up one leaves can
be taken up again: nothing of the run is in its store, so a run that goes on with
a fresh store ends as it would have ended with its own (`run_alike`).
-/
namespace Bytecode

/-! ## The states of a run -/

/-- The states that a run passes through: the one it begins in, and the one after
every step that completes. -/
def visited : Nat → Progress → List State
  | 0, p => [p.machine.state]
  | budget + 1, p => p.machine.state :: match run 1 p with
    | (.exhausted, q) => visited budget q
    | (.halted _ _, q) => [q.machine.state]
    | (.faulted _, _) => []

theorem visited_mono {n m : Nat} (h : n ≤ m) (p : Progress) : visited n p <+: visited m p := by
  induction n generalizing m p with
  | zero =>
    cases m with
    | zero => exact List.prefix_rfl
    | succ m => exact ⟨_, rfl⟩
  | succ n ih =>
    cases m with
    | zero => omega
    | succ m =>
      simp only [visited]
      refine List.cons_prefix_cons.2 ⟨rfl, ?_⟩
      split
      · exact ih (by omega) _
      · exact List.prefix_rfl
      · exact List.prefix_rfl

/-- A run that uses up its budget passes through one state more than it takes
steps, the last being the one it leaves. -/
theorem visited_of_exhausted {n : Nat} {p q : Progress} (h : run n p = (.exhausted, q)) :
    (visited n p).length = n + 1 ∧ (visited n p).getLast? = some q.machine.state := by
  induction n generalizing p with
  | zero => cases h; exact ⟨rfl, rfl⟩
  | succ n ih =>
    rw [run_succ] at h
    rcases hround : run 1 p with ⟨ending, r⟩
    rw [hround] at h
    simp only [visited, hround]
    cases ending with
    | exhausted =>
      obtain ⟨hlength, hlast⟩ := ih h
      rw [List.length_cons, hlength, List.getLast?_cons, hlast]
      exact ⟨rfl, rfl⟩
    | halted outcome returned => cases h
    | faulted fault => cases h

/-! ## Longer runs -/

theorem run_of_exhausted {n m : Nat} (hle : n ≤ m) {p q : Progress} (h : run n p = (.exhausted, q)) :
    run m p = run (m - n) q := by
  have hadd := run_add n (m - n) p
  rw [Nat.add_sub_cancel' hle, h] at hadd
  exact hadd

/-- A run that has ended takes no further steps. -/
theorem run_of_ended {n m : Nat} (hle : n ≤ m) {p q : Progress} {ending : Ending} (h : run n p = (ending, q))
    (hne : ending ≠ .exhausted) : run m p = (ending, q) := by
  have hadd := run_add n (m - n) p
  rw [Nat.add_sub_cancel' hle, h] at hadd
  cases ending with
  | exhausted => exact absurd rfl hne
  | halted outcome returned => exact hadd
  | faulted fault => exact hadd

/-! ## Runs with other stores -/

/-- Whether there are frames or not, the step of a faithful machine does not depend on its store. -/
theorem step_alike {image : Image} {machine other : Machine} (hmachine : Machine.Faithful image machine)
    (h : Machine.Under (BothFaithful image) [] machine other) :
    StepResult.Under (BothFaithful image) Eq [] (step machine) (step other) := by
  by_cases hframes : machine.state.frames = []
  · exact step_under_nil h hframes rfl
  · exact step_under_faithful hmachine hframes h

/-- Runs from one state with two faithful stores end alike, in the same state and after
as many steps. -/
theorem run_alike {image : Image} (himage : image.Unambiguous) (k : Nat) {p q : Progress}
    (hp : Machine.Faithful image p.machine) (h : Machine.Under (BothFaithful image) [] p.machine q.machine) :
    (run k p).1 = (run k q).1 ∧ (run k p).2.machine.state = (run k q).2.machine.state ∧
      (run k p).2.stats.steps + q.stats.steps = (run k q).2.stats.steps + p.stats.steps := by
  have hnext : ∀ machine move next, Machine.Faithful image machine → step machine = .next move next →
      Machine.Faithful image next := by
    intro machine move next hmachine hstep
    have hfaithful := hmachine.step himage
    rw [hstep] at hfaithful
    exact hfaithful
  obtain ⟨hending, hsame, hsteps, -⟩ := run_under (I := fun _ => Machine.Faithful image)
    (fun _ _ _ hmachine hunder => step_alike hmachine hunder) (fun _ => hnext) k hp h
  exact ⟨hending.eq, hsame, hsteps⟩

/-! ## Interpreters with budgets -/

theorem Outcome.text_ne (outcome : Outcome) : outcome.text ≠ "*" := by
  cases outcome <;> decide

namespace Interpreter

/-- The same interpreter with a budget of that many steps. -/
def withBudget (n : Nat) (interpreter : Interpreter) : Interpreter := { interpreter with maxSteps := .int n }

/-- The state as a run leaves it. -/
def left (interpreter : Interpreter) (state : State) : State := (interpreter.drive state).2.machine.state

/-- A run before its first step. -/
def begun (interpreter : Interpreter) (state : State) : Progress :=
  .start interpreter.traced interpreter.trace (interpreter.machine state)

/-- The states that a run of the interpreter passes through. -/
def visited (interpreter : Interpreter) (state : State) : List State :=
  Bytecode.visited interpreter.maxSteps.countBelow (interpreter.begun state)

/-- What an interpreter makes of a state is what its run comes to. -/
theorem execute_eq_run (interpreter : Interpreter) (state : State) :
    let result := run interpreter.maxSteps.countBelow (interpreter.begun state)
    let executed := interpreter.execute state
    executed.1 = report result.2.stats result.1 ∧ executed.2.stats = result.2.stats ∧
      executed.2.image = result.2.machine.store.image ∧ interpreter.left state = result.2.machine.state := by
  obtain ⟨hending, hmachine, hstats⟩ := drive_eq interpreter state
  simp only [execute, left, begun, hending, hmachine, hstats, and_self]

theorem execute_eq (n : Nat) (interpreter : Interpreter) (state : State) :
    let result := run n (interpreter.begun state)
    let executed := (interpreter.withBudget n).execute state
    executed.1 = report result.2.stats result.1 ∧ executed.2.stats = result.2.stats ∧
      executed.2.image = result.2.machine.store.image ∧
      (interpreter.withBudget n).left state = result.2.machine.state :=
  execute_eq_run (interpreter.withBudget n) state

/-- Only a used-up budget is reported as `*`. -/
theorem report_eq_exhausted {stats : Statistics} {ending : Ending} {r : Report} (h : report stats ending = .ok r) :
    r.outcome = "*" ↔ ending = .exhausted := by
  cases ending with
  | halted outcome returned =>
    cases h
    simp [Outcome.text_ne]
  | exhausted => cases h; simp
  | faulted fault => cases h

theorem report_add (n : Nat) {stats stats' : Statistics} (h : stats.steps = n + stats'.steps) (ending : Ending) :
    report stats ending = (report stats' ending).map fun r => { r with steps := n + r.steps } := by
  cases ending <;> simp [report, h, Except.map]

/-- A run whose budget is used up, and a second one of the interpreter as the first
leaves it and from the state that it leaves, end as the longer run. -/
theorem run_resumed {interpreter : Interpreter} (hunambiguous : interpreter.image.Unambiguous) {state : State}
    (hframes : ∀ frame ∈ state.frames, frame.pc.method.Unambiguous) {n m : Nat} (hle : n ≤ m) {q : Progress}
    (h : run n (interpreter.begun state) = (.exhausted, q)) :
    let short := interpreter.withBudget n
    let whole := run m (interpreter.begun state)
    let rest := run (m - n) ((short.execute state).2.begun (short.left state))
    whole.1 = rest.1 ∧ whole.2.stats.steps = n + rest.2.stats.steps := by
  intro short whole rest
  obtain ⟨-, -, himage, hleft⟩ := execute_eq n interpreter state
  rw [h] at himage hleft
  obtain ⟨hreaches, hsteps⟩ : EndsBy (interpreter.machine state) n _ (.exhausted, q) := h ▸ run_endsBy n _
  -- Counts of a run begin at nothing.
  have htaken : q.stats.steps = n := hsteps.trans (Nat.zero_add n)
  have hfirst : Machine.Faithful interpreter.image (interpreter.machine state) :=
    ⟨Store.faithful_ofImage interpreter.image, hframes⟩
  have hq := hfirst.reaches hunambiguous hreaches
  have hunder : Machine.Under (BothFaithful interpreter.image) [] q.machine
      ((short.execute state).2.begun (short.left state)).machine := by
    refine ⟨?_, hq.store, ?_⟩
    · change short.left state = _
      rw [hleft]
      simp [State.above]
    · -- The fresh store is over the image as the shorter run leaves it.
      change Store.Faithful _ (.ofImage (short.execute state).2.image)
      rw [himage]
      exact (Store.faithful_ofImage _).of_agrees hq.store.agrees
  obtain ⟨hending, -, hcount⟩ := run_alike hunambiguous (m - n) hq hunder
  have hwhole : whole = run (m - n) q := run_of_exhausted hle h
  have hsum : (run (m - n) q).2.stats.steps + 0 = rest.2.stats.steps + q.stats.steps := hcount
  rw [hwhole]
  exact ⟨hending, by omega⟩

/-- Two runs of an interpreter from one state, with a budget and with one at least as long.

- If the shorter run ends before its budget is used up, also with a fault, the
  longer one has the same report and the same counts.
- If it does not, it takes all its steps, and the longer run passes through the
  same states first. Going on from the state that it leaves, with what is missing
  of the longer budget and a fresh store, gives the longer run's report but for
  the steps taken before, as long as the identifiers of methods are unambiguous. -/
theorem longer_budget (interpreter : Interpreter) (state : State) {n m : Nat} (hle : n ≤ m) :
    let short := interpreter.withBudget n
    let long := interpreter.withBudget m
    ((∀ r, (short.execute state).1 = .ok r → r.outcome ≠ "*") →
      (long.execute state).1 = (short.execute state).1 ∧ (long.execute state).2.stats = (short.execute state).2.stats) ∧
    ∀ r, (short.execute state).1 = .ok r → r.outcome = "*" →
      r.steps = n ∧ short.visited state <+: long.visited state ∧ (short.visited state).length = n + 1 ∧
      (short.visited state).getLast? = some (short.left state) ∧
      (interpreter.image.Unambiguous → (∀ frame ∈ state.frames, frame.pc.method.Unambiguous) →
        let rest := ((short.execute state).2.withBudget (m - n)).execute (short.left state)
        (long.execute state).1 = rest.1.map fun r => { r with steps := n + r.steps }) := by
  intro short long
  obtain ⟨hreport, hstats, -, hleft⟩ := execute_eq n interpreter state
  obtain ⟨hreport', hstats', -, -⟩ := execute_eq m interpreter state
  rcases hrun : run n (interpreter.begun state) with ⟨ending, q⟩
  rw [hrun] at hreport hstats hleft
  constructor
  · intro hends
    have hne : ending ≠ .exhausted := by
      rintro rfl
      exact hends _ hreport rfl
    rw [run_of_ended hle hrun hne] at hreport' hstats'
    exact ⟨hreport'.trans hreport.symm, hstats'.trans hstats.symm⟩
  · intro r hr hstar
    have hreported : report q.stats ending = .ok r := hreport.symm.trans hr
    -- No outcome is written `*`, so the budget was used up.
    obtain rfl := (report_eq_exhausted hreported).1 hstar
    obtain ⟨-, hsteps⟩ : EndsBy _ n _ (.exhausted, q) := hrun ▸ run_endsBy n (interpreter.begun state)
    obtain ⟨hlength, hlast⟩ := visited_of_exhausted hrun
    refine ⟨?_, visited_mono hle _, hlength, hlast.trans (congrArg some hleft.symm), ?_⟩
    · cases hreported
      exact hsteps.trans (Nat.zero_add n)
    · intro hunambiguous hframes rest
      obtain ⟨hrest, -, -, -⟩ := execute_eq (m - n) (short.execute state).2 (short.left state)
      obtain ⟨hending, hcount⟩ := run_resumed hunambiguous hframes hle hrun
      rw [hreport', hrest, hending]
      exact report_add n hcount _

end Interpreter

open Sample in
/-- The small program needs four steps for the first item. Five more change nothing,
and it can be interrupted after two. -/
theorem first_item_under_budgets :
    let interpreter := Interpreter.ofImage image (.int 0) false
    let state : State := ⟨⟨#[.array (.primitive .int) [.int 7, .int 8]]⟩,
      [.start (method "first") [.reference (some (.int 0))]], []⟩
    let short := (interpreter.withBudget 2).execute state
    ((interpreter.withBudget 9).execute state).1 = ((interpreter.withBudget 4).execute state).1 ∧
      ((interpreter.withBudget 4).execute state).1 =
        ((short.2.withBudget 2).execute ((interpreter.withBudget 2).left state)).1.map fun r =>
          { r with steps := 2 + r.steps } := by
  intro interpreter state short
  have hwhole : ((interpreter.withBudget 4).execute state).1 = .ok ⟨"ok", 4, some (.int 7)⟩ := rfl
  have hshort : short.1 = .ok ⟨"*", 2, none⟩ := rfl
  constructor
  · refine ((interpreter.longer_budget state (show 4 ≤ 9 by decide)).1 fun r hr => ?_).1
    obtain rfl := Except.ok.inj (hwhole.symm.trans hr)
    decide
  · obtain ⟨-, -, -, -, hrest⟩ := (interpreter.longer_budget state (show 2 ≤ 4 by decide)).2 _ hshort rfl
    refine hrest unambiguous_image fun frame hframe => ?_
    obtain rfl := List.mem_singleton.1 hframe
    exact unambiguous_method (by decide)

end Bytecode
