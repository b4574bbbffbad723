import Bytecode.Proofs.Checks
import Bytecode.Proofs.Steps
/-!
# A step that fails leaves the state whole

What stops before it writes has at most taken operands. `step_leaves_whole`
says what this means for a step: one that fails, or ends the program with
another outcome than `ok`, leaves heap, static fields and frames as they were,
but for operands gone from the top of the innermost stack. A program that ends
with `ok` has lost its last frame and nothing else.
-/
namespace Bytecode

/-- Nothing but operands from the top was taken, and the store may have changed. -/
def Activation.Popped (before after : Activation) : Prop :=
  ∃ rest store, rest <:+ before.frame.stack ∧ after = { before.withStack rest with store }

namespace Activation

theorem popped_refl (act : Activation) : Popped act act :=
  ⟨act.frame.stack, act.store, List.suffix_refl _, rfl⟩

theorem Popped.trans {act act' act'' : Activation} (h : Popped act act') (h' : Popped act' act'') :
    Popped act act'' := by
  obtain ⟨rest, store, hrest, rfl⟩ := h
  obtain ⟨rest', store', hrest', rfl⟩ := h'
  exact ⟨rest', store', hrest'.trans hrest, rfl⟩

end Activation

namespace Exec

open Activation

/-- The action at most takes operands, and does not stop as a finished program. -/
def Harmless {α : Type} (x : Exec α) : Prop :=
  ∀ act, Popped act (final (x act)) ∧ ∀ stop act', x act = .error stop act' → stop ≠ .halt .ok

theorem harmless_pure {α : Type} (a : α) : Harmless (pure a : Exec α) := by
  intro act
  refine ⟨popped_refl act, ?_⟩
  intro stop act' h
  cases h

theorem harmless_onStore {α : Type} (action : EStateM Fault Store α) : Harmless (onStore action) := by
  intro act
  unfold onStore
  cases action act.store with
  | ok a store =>
    refine ⟨⟨_, store, List.suffix_refl _, rfl⟩, ?_⟩
    intro stop act' h
    cases h
  | error fault store =>
    refine ⟨⟨_, store, List.suffix_refl _, rfl⟩, ?_⟩
    intro stop act' h
    cases h
    simp

theorem harmless_pop : Harmless pop := by
  intro act
  rw [pop_apply]
  cases hstack : act.frame.stack with
  | nil =>
    refine ⟨popped_refl act, ?_⟩
    intro stop act' h
    cases h
    simp
  | cons v rest =>
    refine ⟨⟨rest, act.store, hstack ▸ List.suffix_cons v rest, rfl⟩, ?_⟩
    intro stop act' h
    cases h

theorem Harmless.bind {α β : Type} {x : Exec α} {f : α → Exec β} (hx : Harmless x) (hf : ∀ a, Harmless (f a)) :
    Harmless (x >>= f) := by
  intro act
  obtain ⟨hpopped, hstop⟩ := hx act
  rw [bind_apply]
  cases hact : x act with
  | error stop act' =>
    rw [hact] at hpopped
    refine ⟨hpopped, ?_⟩
    intro stop' act'' h
    cases h
    exact hstop _ _ hact
  | ok a act' =>
    rw [hact] at hpopped
    exact ⟨hpopped.trans (hf a act').1, (hf a act').2⟩

theorem Checks.harmless {N : Text → Prop} {α : Type} {x : Exec α} (h : Checks N x) : Harmless x := by
  induction h with
  | pure a => exact harmless_pure a
  | raise fault =>
    intro act
    refine ⟨popped_refl act, ?_⟩
    intro stop act' h
    cases h
    simp
  | halt ho =>
    intro act
    refine ⟨popped_refl act, ?_⟩
    intro stop act' h
    cases h
    simpa using ho
  | pop => exact harmless_pop
  | freshFields className => exact (harmless_onStore _).bind fun info => harmless_pure _
  | staticValue field => exact harmless_onStore _
  | get hblind hf ih =>
    intro act
    exact ih act act
  | bind hx hf ihx ihf => exact ihx.bind ihf

/-- When an instruction stops, it has at most taken operands. -/
theorem ChecksThenWrites.popped {N : Text → Prop} {x : Exec Control} (h : ChecksThenWrites N x) {act act' : Activation} {stop : Stop}
    (hstop : x act = .error stop act') : Popped act act' ∧ stop ≠ .halt .ok := by
  -- What stops is a check: nothing stops any more once the write is made.
  induction h generalizing act with
  | checks hx =>
    obtain ⟨hpopped, hne⟩ := hx.harmless act
    rw [hstop] at hpopped
    exact ⟨hpopped, hne stop act' hstop⟩
  | write control hblind => cases hstop
  | get hblind hf ih => exact ih act hstop
  | @bind α x f hx hf ih =>
    obtain ⟨hpopped, hne⟩ := hx.harmless act
    -- Either the first check stops, or it leaves a popped activation to the rest.
    rw [bind_apply] at hstop
    cases hact : x act with
    | error stop' act'' =>
      rw [hact] at hstop hpopped
      cases hstop
      exact ⟨hpopped, hne _ _ hact⟩
    | ok a act'' =>
      rw [hact] at hstop hpopped
      obtain ⟨hrest, hne'⟩ := ih a hstop
      exact ⟨hpopped.trans hrest, hne'⟩

end Exec

/-! ## Steps -/

/-- The state as it was, but for operands that the innermost frame has lost from
the top of its stack. -/
inductive State.OnlyPopped (before : State) : State → Prop
  | unchanged : OnlyPopped before before
  | popped {frame : Frame} {callers : List Frame} {rest : OperandStack} :
      before.frames = frame :: callers → rest <:+ frame.stack →
      OnlyPopped before { before with frames := { frame with stack := rest } :: callers }

/-- The state without its only frame. -/
def State.Emptied (before after : State) : Prop :=
  ∃ frame, before.frames = [frame] ∧ after = { before with frames := [] }

/-- What a step that stops inside an instruction leaves. -/
theorem onlyPopped_of_popped {state : State} {frame : Frame} {callers : List Frame} {store : Store}
    {act : Activation} (hframes : state.frames = frame :: callers)
    (h : Activation.Popped ⟨frame, state.heap, state.statics, store⟩ act) :
    state.OnlyPopped (act.machine (act.frame :: callers)).state := by
  obtain ⟨rest, store', hrest, rfl⟩ := h
  exact .popped hframes hrest

/-- How the result of a step relates to the state before it, if the step does
not go on. -/
def StepResult.LeavesWhole (before : State) : StepResult → Prop
  | .next _ _ => True
  | .halt .ok _ after => before.Emptied after.state
  | .halt _ _ after => before.OnlyPopped after.state
  | .fault _ after => before.OnlyPopped after.state

theorem leavesWhole_stop {state : State} {frame : Frame} {callers : List Frame} {store : Store}
    {act : Activation} {stop : Stop} (hframes : state.frames = frame :: callers)
    (h : Activation.Popped ⟨frame, state.heap, state.statics, store⟩ act) (hstop : stop ≠ .halt .ok) :
    (stop.apply act callers).LeavesWhole state := by
  have hpopped := onlyPopped_of_popped hframes h
  cases stop with
  | fault f => exact hpopped
  | halt outcome =>
    cases outcome with
    | ok => exact absurd rfl hstop
    | _ => exact hpopped

/-- Only a return leaves a frame, and it changes nothing but its operands. -/
theorem Effect.popped_of_leave {act act' : Activation} {instruction : Instruction} {returned : Option Value}
    (h : Effect act instruction (.leave returned) act') : Activation.Popped act act' := by
  cases h with
  | leaveNothing => exact Activation.popped_refl act
  | @leave category v rest hstack hfits => exact ⟨rest, act.store, hstack ▸ List.suffix_cons v rest, rfl⟩
  | branch _ _ _ _ hcontrol => exact absurd hcontrol (leave_ne_branchTo _ _ _)
  | branchZero _ _ _ hcontrol => exact absurd hcontrol (leave_ne_branchTo _ _ _)

theorem leavesWhole_control {state : State} {frame : Frame} {callers : List Frame} {store : Store}
    {act : Activation} {instruction : Instruction} {control : Control} (hframes : state.frames = frame :: callers)
    (h : Effect ⟨frame, state.heap, state.statics, store⟩ instruction control act) :
    (control.apply act callers).LeavesWhole state := by
  cases control with
  | leave returned =>
    cases callers with
    | nil =>
      obtain ⟨rest, store', hrest, rfl⟩ := h.popped_of_leave
      exact ⟨frame, hframes, rfl⟩
    | cons caller callers => trivial
  | _ => trivial

/-! ## Steps that do not go on -/

namespace State.OnlyPopped

variable {before after : State}

theorem depth_eq (h : before.OnlyPopped after) : after.depth = before.depth := by
  cases h with
  | unchanged => rfl
  | popped hframes _ => simp [depth, hframes]

theorem heap_eq (h : before.OnlyPopped after) : after.heap = before.heap := by
  cases h <;> rfl

end State.OnlyPopped

/-- A step ends the program with `ok` by taking away its last frame. If it ends it with
another outcome, the frames stay and nothing is returned. -/
theorem halted_cases {machine left : Machine} {outcome : Outcome} {returned : Option Value}
    (h : step machine = .halt outcome returned left) :
    (outcome = .ok ∧ machine.state.Emptied left.state) ∨
      outcome ≠ .ok ∧ returned = none ∧ machine.state.frames ≠ [] ∧ machine.state.OnlyPopped left.state := by
  have hcases := step_cases machine
  rw [h] at hcases
  cases hcases with
  | noFrame _ hresult => cases hresult
  | unfetched _ _ hresult => cases hresult
  | @stopped frame callers _ _ stop act hframes _ hexecute hresult =>
    obtain ⟨hpopped, hstop⟩ := (Exec.execute_checks _).popped hexecute
    cases stop with
    | fault f => cases hresult
    | halt outcome' =>
      cases hresult
      refine .inr ⟨fun hok => hstop (congrArg _ hok), rfl, ?_, onlyPopped_of_popped hframes hpopped⟩
      exact hframes ▸ List.cons_ne_nil _ _
  | @completed frame callers _ _ control act hframes _ hexecute hresult =>
    -- What completes and does not go on has left the last frame.
    rcases control.apply_cases act callers with ⟨move, happly, -⟩ | ⟨returned', rfl, rfl, happly⟩
    · rw [happly] at hresult
      cases hresult
    · rw [happly] at hresult
      cases hresult
      obtain ⟨rest, store', hrest, rfl⟩ := (Exec.effect_of_execute hexecute).popped_of_leave
      exact .inl ⟨rfl, frame, hframes, rfl⟩

theorem faulted_onlyPopped {machine left : Machine} {fault : Fault} (h : step machine = .fault fault left) :
    machine.state.OnlyPopped left.state := by
  have hcases := step_cases machine
  rw [h] at hcases
  cases hcases with
  | noFrame _ hresult => cases hresult; exact .unchanged
  | unfetched _ _ hresult => cases hresult; exact .unchanged
  | @stopped frame callers _ _ stop act hframes _ hexecute hresult =>
    obtain ⟨hpopped, -⟩ := (Exec.execute_checks _).popped hexecute
    cases stop with
    | fault f => cases hresult; exact onlyPopped_of_popped hframes hpopped
    | halt outcome => cases hresult
  | @completed frame callers _ _ control act hframes _ hexecute hresult =>
    rcases control.apply_cases act callers with ⟨move, happly, -⟩ | ⟨returned, rfl, rfl, happly⟩
    · rw [happly] at hresult
      cases hresult
    · rw [happly] at hresult
      cases hresult

/-- A step that fails, or ends the program with another outcome than `ok`, takes
nothing but operands of the innermost frame; one that ends it with `ok` takes
away the last frame and nothing else. -/
theorem step_leaves_whole (machine : Machine) : (step machine).LeavesWhole machine.state := by
  cases step_cases machine with
  | noFrame hframes hresult =>
    rw [hresult]
    exact .unchanged
  | unfetched hframes hfetch hresult =>
    rw [hresult]
    exact .unchanged
  | stopped hframes hfetch hexecute hresult =>
    rw [hresult]
    obtain ⟨hpopped, hstop⟩ := (Exec.execute_checks _).popped hexecute
    exact leavesWhole_stop hframes hpopped hstop
  | completed hframes hfetch hexecute hresult =>
    rw [hresult]
    exact leavesWhole_control hframes (Exec.effect_of_execute hexecute)

end Bytecode
