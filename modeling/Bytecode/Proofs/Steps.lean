import Bytecode.Proofs.Effect
/-!
# What a step does

`step_cases` says all that a step can do: it finds no frame, or no instruction, or
the instruction stops, or it completes and control is applied. The machine that
applied control leaves is given by `Control.frames` alone, so an invariant is
looked at once for the instruction's effect and once for the frames.
-/
namespace Bytecode

/-- The machine as a step leaves it, however it ends. -/
def StepResult.machine : StepResult → Machine
  | .next _ machine => machine
  | .halt _ _ machine => machine
  | .fault _ machine => machine

/-! ## Control -/

/-- A caller as it goes on behind its call. -/
def Frame.resume (returned : Option Value) (caller : Frame) : Frame :=
  match returned with
    | some v => (caller.push v).advance (.int 1)
    | none => caller.advance (.int 1)

theorem Frame.method_resume (returned : Option Value) (caller : Frame) :
    (caller.resume returned).pc.method = caller.pc.method := by
  cases returned <;> rfl

/-- The call stack after an instruction, above the given callers. -/
def Control.frames (act : Activation) (callers : List Frame) : Control → List Frame
  | next => act.frame.advance (.int 1) :: callers
  | jump target => act.frame.jump (.int target) :: callers
  | call callee => callee :: act.frame :: callers
  | leave returned =>
    match callers with
      | [] => []
      | caller :: callers => caller.resume returned :: callers

theorem finish_apply (act : Activation) (returned : Option Value) (caller : Frame) (callers : List Frame) :
    finish act returned (caller :: callers) = .next .leave (act.machine (caller.resume returned :: callers)) := by
  cases returned <;> rfl

/-- Applied control goes on, or it ends the program with `ok` for want of a caller. -/
theorem Control.apply_cases (act : Activation) (callers : List Frame) (control : Control) :
    (∃ move, control.apply act callers = .next move (act.machine (control.frames act callers)) ∧
        control.frames act callers ≠ []) ∨
      ∃ returned, control = .leave returned ∧ callers = [] ∧
        control.apply act callers = .halt .ok returned (act.machine []) := by
  cases control with
  | leave returned =>
    cases callers with
    | nil => exact .inr ⟨returned, rfl, rfl, rfl⟩
    | cons caller callers => exact .inl ⟨.leave, finish_apply act returned caller callers, List.cons_ne_nil _ _⟩
  | next => exact .inl ⟨.stay, rfl, List.cons_ne_nil _ _⟩
  | jump target => exact .inl ⟨.stay, rfl, List.cons_ne_nil _ _⟩
  | call callee => exact .inl ⟨.enter, rfl, List.cons_ne_nil _ _⟩

theorem Control.machine_apply (act : Activation) (callers : List Frame) (control : Control) :
    (control.apply act callers).machine = act.machine (control.frames act callers) := by
  rcases control.apply_cases act callers with ⟨move, happly, -⟩ | ⟨returned, rfl, rfl, happly⟩
  · rw [happly]
    rfl
  · rw [happly]
    rfl

theorem Stop.machine_apply (act : Activation) (callers : List Frame) (stop : Stop) :
    (stop.apply act callers).machine = act.machine (act.frame :: callers) := by
  cases stop <;> rfl

/-! ## Steps -/

/-- Fetching and executing, in one equation. -/
theorem step_cons {machine : Machine} {frame : Frame} {callers : List Frame}
    (h : machine.state.frames = frame :: callers) :
    step machine = match Store.fetch frame.pc machine.store with
      | .error fault store => .fault fault { machine with store }
      | .ok instruction store =>
        match execute instruction ⟨frame, machine.state.heap, machine.state.statics, store⟩ with
          | .ok control act => control.apply act callers
          | .error stop act => stop.apply act callers := by
  rcases machine with ⟨⟨heap, frames, statics⟩, store⟩
  cases h
  rfl

/-- The ways in which a step comes to its result. -/
inductive Stepped (machine : Machine) (result : StepResult) : Prop
  | noFrame : machine.state.frames = [] → result = .fault (.malformed .callStackEmpty) machine →
      Stepped machine result
  | unfetched {frame callers fault store} : machine.state.frames = frame :: callers →
      Store.fetch frame.pc machine.store = .error fault store → result = .fault fault { machine with store } →
      Stepped machine result
  | stopped {frame callers instruction store stop act} : machine.state.frames = frame :: callers →
      Store.fetch frame.pc machine.store = .ok instruction store →
      execute instruction ⟨frame, machine.state.heap, machine.state.statics, store⟩ = .error stop act →
      result = stop.apply act callers → Stepped machine result
  | completed {frame callers instruction store control act} : machine.state.frames = frame :: callers →
      Store.fetch frame.pc machine.store = .ok instruction store →
      execute instruction ⟨frame, machine.state.heap, machine.state.statics, store⟩ = .ok control act →
      result = control.apply act callers → Stepped machine result

theorem step_cases (machine : Machine) : Stepped machine (step machine) := by
  cases hframes : machine.state.frames with
  | nil => exact .noFrame hframes (by simp only [step, hframes])
  | cons frame callers =>
    have hstep := step_cons hframes
    cases hfetch : Store.fetch frame.pc machine.store with
    | error fault store =>
      rw [hfetch] at hstep
      exact .unfetched hframes hfetch hstep
    | ok instruction store =>
      rw [hfetch] at hstep
      simp only [] at hstep
      cases hexecute : execute instruction ⟨frame, machine.state.heap, machine.state.statics, store⟩ with
      | error stop act =>
        rw [hexecute] at hstep
        exact .stopped hframes hfetch hexecute hstep
      | ok control act =>
        rw [hexecute] at hstep
        exact .completed hframes hfetch hexecute hstep

/-- A step that goes on is that of an instruction that completed. -/
theorem completed_of_next {machine next : Machine} {move : Move} (h : step machine = .next move next) :
    ∃ frame callers instruction store control act, machine.state.frames = frame :: callers ∧
      Store.fetch frame.pc machine.store = .ok instruction store ∧
      Effect ⟨frame, machine.state.heap, machine.state.statics, store⟩ instruction control act ∧
      next = act.machine (control.frames act callers) ∧ control.frames act callers ≠ [] := by
  have hcases := step_cases machine
  rw [h] at hcases
  cases hcases with
  | noFrame hframes hresult => cases hresult
  | unfetched hframes hfetch hresult => cases hresult
  | @stopped frame callers instruction store stop act hframes hfetch hexecute hresult =>
    cases stop <;> cases hresult
  | @completed frame callers instruction store control act hframes hfetch hexecute hresult =>
    -- An instruction that completes goes on unless it leaves the last frame.
    rcases control.apply_cases act callers with ⟨move', happly, hne⟩ | ⟨returned, -, -, happly⟩
    · rw [happly] at hresult
      cases hresult
      exact ⟨frame, callers, instruction, store, control, act, hframes, hfetch,
        Exec.effect_of_execute hexecute, rfl, hne⟩
    · rw [happly] at hresult
      cases hresult

/-- A step that goes on leaves a frame to go on in. -/
theorem frames_ne_nil_of_step {machine next : Machine} {move : Move} (h : step machine = .next move next) :
    next.state.frames ≠ [] := by
  obtain ⟨_, _, _, _, _, _, -, -, -, rfl, hne⟩ := completed_of_next h
  exact hne

/-! ## The next instruction -/

/-- The innermost frame is at an instruction, above its callers; the store is what fetching it leaves. -/
structure Machine.At (machine : Machine) (frame : Frame) (callers : List Frame) (i : Instruction) (store : Store) :
    Prop where
  frames : machine.state.frames = frame :: callers
  fetched : Store.fetch frame.pc machine.store = .ok i store

namespace Machine.At

variable {machine : Machine} {frame : Frame} {callers : List Frame} {i : Instruction} {store : Store}

/-- A step that goes on has executed the instruction. -/
theorem effect (h : machine.At frame callers i store) {next : Machine} {move : Move}
    (hstep : step machine = .next move next) :
    ∃ control act, Effect ⟨frame, machine.state.heap, machine.state.statics, store⟩ i control act ∧
      next = act.machine (control.frames act callers) := by
  obtain ⟨frame', callers', i', store', control, act, hframes, hfetch, heffect, hnext, -⟩ := completed_of_next hstep
  obtain ⟨rfl, rfl⟩ := List.cons.inj (h.frames.symm.trans hframes)
  rw [h.fetched] at hfetch
  cases hfetch
  exact ⟨control, act, heffect, hnext⟩

theorem step_of_ok (h : machine.At frame callers i store) {control : Control} {act : Activation}
    (hexecute : execute i ⟨frame, machine.state.heap, machine.state.statics, store⟩ = .ok control act) :
    step machine = control.apply act callers := by
  rw [step_cons h.frames]
  simp only [h.fetched, hexecute]

theorem step_of_error (h : machine.At frame callers i store) {stop : Stop} {act : Activation}
    (hexecute : execute i ⟨frame, machine.state.heap, machine.state.statics, store⟩ = .error stop act) :
    step machine = stop.apply act callers := by
  rw [step_cons h.frames]
  simp only [h.fetched, hexecute]

end Machine.At

/-- A machine that goes on is at an instruction. -/
theorem at_of_next {machine next : Machine} {move : Move} (h : step machine = .next move next) :
    ∃ frame callers i store, machine.At frame callers i store := by
  obtain ⟨frame, callers, i, store, _, _, hframes, hfetch, -, -, -⟩ := completed_of_next h
  exact ⟨frame, callers, i, store, hframes, hfetch⟩

end Bytecode
