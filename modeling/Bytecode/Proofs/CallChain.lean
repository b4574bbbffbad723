import Bytecode.Proofs.Reach
/-!
# Suspended frames rest on their calls

A frame with others above it waits for a call to return. We prove that it rests on the
very instruction that made the call: the frames of a run are a `CallChain`, in which
each frame but the innermost is at an `invoke` of the method above it. `Shift` says how
a step changes the call stack. As only its innermost frame is ever touched, a frame is
of the same method as long as it is there (`ReachesOver.frame_kept`), and a caller goes
on right behind the `invoke` that it rested on (`resumes_behind_call`).
-/
namespace Bytecode

/-! ## What a step does to the call stack -/

/-- The call stack after a step that goes on: the innermost frame goes on in its method,
calls a method or returns. -/
inductive Shift (machine : Machine) : Move → List Frame → Prop
  | stay {frame frame' callers} : machine.state.frames = frame :: callers →
      frame'.pc.method = frame.pc.method → Shift machine .stay (frame' :: callers)
  | enter {caller callers access method store args rest} :
      machine.At caller callers (.invoke access method) store →
      ¬(access = .special ∧ method.isObjectConstructor = true) →
      Shift machine .enter (.start method args :: { caller with stack := rest } :: callers)
  | leave {frame caller callers returned} : machine.state.frames = frame :: caller :: callers →
      Shift machine .leave (caller.resume returned :: callers)

theorem shift_of_step {machine next : Machine} {move : Move} (h : step machine = .next move next) :
    Shift machine move next.state.frames := by
  have hcases := step_cases machine
  rw [h] at hcases
  cases hcases with
  | noFrame _ hresult => cases hresult
  | unfetched _ _ hresult => cases hresult
  | @stopped _ _ _ _ stop _ _ _ _ hresult => cases stop <;> cases hresult
  | @completed frame callers _ _ control act hframes hfetch hexecute hresult =>
    have heffect := Exec.effect_of_execute hexecute
    have hmethod : act.frame.pc.method = frame.pc.method := congrArg ProgramCounter.method heffect.pc_eq
    cases control with
    | next =>
      cases hresult
      exact .stay hframes hmethod
    | jump target =>
      cases hresult
      exact .stay hframes hmethod
    | call callee =>
      obtain ⟨access, method, args, rest, rfl, hroot, rfl, rfl⟩ := heffect.call_eq
      cases hresult
      exact .enter ⟨hframes, hfetch⟩ hroot
    | leave returned =>
      cases callers with
      | nil => cases hresult
      | cons caller callers =>
        rw [Control.apply, finish_apply] at hresult
        cases hresult
        exact .leave hframes

/-- A frame and those below it stay, the frame in its method, unless it is the innermost one and returns. -/
theorem Shift.frame_kept {machine : Machine} {move : Move} {frames inner callers : List Frame} {frame : Frame}
    (h : Shift machine move frames) (hframes : machine.state.frames = inner ++ frame :: callers)
    (hfloor : callers.length < frames.length) :
    ∃ inner' frame', frames = inner' ++ frame' :: callers ∧ frame'.pc.method = frame.pc.method := by
  cases h with
  | @stay top top' below htop hmethod =>
    rw [htop] at hframes
    cases inner with
    | nil =>
      obtain ⟨rfl, rfl⟩ := List.cons.inj hframes
      exact ⟨[], top', rfl, hmethod⟩
    | cons _ inner =>
      obtain ⟨rfl, rfl⟩ := List.cons.inj hframes
      exact ⟨top' :: inner, frame, rfl, rfl⟩
  | @enter caller below access method store args rest hat _ =>
    rw [hat.frames] at hframes
    cases inner with
    | nil =>
      obtain ⟨rfl, rfl⟩ := List.cons.inj hframes
      exact ⟨[.start method args], { caller with stack := rest }, rfl, rfl⟩
    | cons _ inner =>
      obtain ⟨rfl, rfl⟩ := List.cons.inj hframes
      exact ⟨.start method args :: { caller with stack := rest } :: inner, frame, rfl, rfl⟩
  | @leave top caller below returned htop =>
    rw [htop] at hframes
    cases inner with
    | nil =>
      -- The frame itself has returned.
      obtain ⟨rfl, rfl⟩ := List.cons.inj hframes
      simp at hfloor
    | cons _ inner =>
      obtain ⟨rfl, hbelow⟩ := List.cons.inj hframes
      cases inner with
      | nil =>
        obtain ⟨rfl, rfl⟩ := List.cons.inj hbelow
        exact ⟨[], caller.resume returned, rfl, caller.method_resume returned⟩
      | cons _ inner =>
        obtain ⟨rfl, rfl⟩ := List.cons.inj hbelow
        exact ⟨caller.resume returned :: inner, frame, rfl, rfl⟩

/-! ## Activations -/

/-- Steps lead from the first machine to another, and never to fewer frames than `floor`. -/
inductive ReachesOver (floor : Nat) (first : Machine) : Machine → Prop
  | refl : ReachesOver floor first first
  | step {machine next move} : ReachesOver floor first machine → Bytecode.step machine = .next move next →
      floor ≤ next.state.depth → ReachesOver floor first next

/-- While a run does not return from a frame, the frame is of its method and above the same callers. -/
theorem ReachesOver.frame_kept {first last : Machine} {inner callers : List Frame} {frame : Frame}
    (h : ReachesOver (callers.length + 1) first last) (hframes : first.state.frames = inner ++ frame :: callers) :
    ∃ inner' frame', last.state.frames = inner' ++ frame' :: callers ∧ frame'.pc.method = frame.pc.method := by
  induction h with
  | refl => exact ⟨inner, frame, hframes, rfl⟩
  | step _ hstep hfloor ih =>
    obtain ⟨inner', frame', hframes', hmethod⟩ := ih
    obtain ⟨inner'', frame'', hnext, hmethod'⟩ := (shift_of_step hstep).frame_kept hframes' hfloor
    exact ⟨inner'', frame'', hnext, hmethod'.trans hmethod⟩

/-- A call that returns has its caller go on right behind it, with its slots and above its callers as they were. -/
theorem resumes_behind_call {machine entered last back : Machine} {caller : Frame} {callers : List Frame}
    (hframes : machine.state.frames = caller :: callers) (henter : step machine = .next .enter entered)
    (hover : ReachesOver (callers.length + 2) entered last) (hleave : step last = .next .leave back)
    (hdepth : back.state.depth = callers.length + 1) :
    ∃ access method store stack, machine.At caller callers (.invoke access method) store ∧
      entered.state.frames.head?.map (·.pc) = some (.start method) ∧
      back.state.frames = { caller with pc := caller.pc.advance (.int 1), stack } :: callers := by
  have hshift := shift_of_step henter
  generalize hentered : entered.state.frames = frames at hshift
  cases hshift with
  | @enter caller' callers' access method store args rest hat _ =>
    obtain ⟨rfl, rfl⟩ := List.cons.inj (hframes.symm.trans hat.frames)
    -- The waiting caller is below the callee as long as the call lasts.
    have hcallee : entered.state.frames = [] ++ .start method args :: { caller with stack := rest } :: callers := hentered
    have hover' : ReachesOver (({ caller with stack := rest } :: callers).length + 1) entered last := hover
    obtain ⟨inner, callee, hlast, -⟩ := hover'.frame_kept hcallee
    have hreturn := shift_of_step hleave
    rw [State.depth] at hdepth
    generalize back.state.frames = left at hreturn hdepth
    cases hreturn with
    | @leave top resumed below returned htop =>
      rw [hlast] at htop
      have hlength : below.length = callers.length := by simpa using hdepth
      have hinner : inner = [] := by
        have := congrArg List.length htop
        simp only [List.length_append, List.length_cons] at this
        exact List.length_eq_zero_iff.1 (by omega)
      subst hinner
      obtain ⟨-, hbelow⟩ := List.cons.inj htop
      obtain ⟨rfl, rfl⟩ := List.cons.inj hbelow
      refine ⟨access, method, store, returned.toList ++ rest, hat, rfl, ?_⟩
      cases returned <;> rfl

/-! ## Chains of calls -/

section Chains

variable {image : Image} {entry : MethodId}

/-- The frame rests on a call of a method: its instruction is an `invoke` of it, and not the one
that does nothing but take its receiver. -/
def Frame.RestsOn (image : Image) (method : MethodId) (caller : Frame) : Prop :=
  ∃ access, answer (Store.fetch caller.pc (.ofImage image)) = .ok (.invoke access method) ∧
    ¬(access = .special ∧ method.isObjectConstructor = true)

/-- The outermost frame is of the entry method, and every other one of the method that is called by
the `invoke` on which the frame below it rests. -/
inductive CallChain (image : Image) (entry : MethodId) : List Frame → Prop
  | entry {frame} : frame.pc.method = entry → CallChain image entry [frame]
  | call {callee caller callers} : caller.RestsOn image callee.pc.method →
      CallChain image entry (caller :: callers) → CallChain image entry (callee :: caller :: callers)

namespace CallChain

/-- The innermost frame may be anywhere in its method. -/
theorem of_method_eq {frame frame' : Frame} {callers : List Frame} (h : CallChain image entry (frame :: callers))
    (hmethod : frame'.pc.method = frame.pc.method) : CallChain image entry (frame' :: callers) := by
  cases h with
  | entry hentry => exact .entry (hmethod.trans hentry)
  | call hrests hcallers => exact .call (hmethod ▸ hrests) hcallers

theorem step {machine next : Machine} {move : Move} (h : CallChain image entry machine.state.frames)
    (hmachine : Machine.Faithful image machine) (hstep : Bytecode.step machine = .next move next) :
    CallChain image entry next.state.frames := by
  have hshift := shift_of_step hstep
  generalize next.state.frames = frames at hshift
  cases hshift with
  | stay hframes hmethod =>
    rw [hframes] at h
    exact h.of_method_eq hmethod
  | @enter caller callers access method store args rest hat hroot =>
    rw [hat.frames] at h
    -- What the machine has fetched is what the image says.
    have hanswer := (hmachine.store.fetch (hmachine.frames caller (by simp [hat.frames]))).1
    rw [hat.fetched] at hanswer
    exact .call ⟨access, hanswer.symm, hroot⟩ (h.of_method_eq rfl)
  | @leave frame caller callers returned hframes =>
    rw [hframes] at h
    cases h with
    | call _ hcallers => exact hcallers.of_method_eq (caller.method_resume returned)

theorem popped {before after : State} (h : CallChain image entry before.frames) (hpopped : before.OnlyPopped after) :
    CallChain image entry after.frames := by
  cases hpopped with
  | unchanged => exact h
  | popped hframes _ =>
    rw [hframes] at h
    exact h.of_method_eq rfl

/-- What a step leaves is a chain again, however it ends, unless it has taken away the last frame. -/
theorem left {machine : Machine} (h : CallChain image entry machine.state.frames)
    (hmachine : Machine.Faithful image machine) :
    (Bytecode.step machine).machine.state.frames = [] ∨
      CallChain image entry (Bytecode.step machine).machine.state.frames := by
  cases hstep : Bytecode.step machine with
  | next move next => exact .inr (h.step hmachine hstep)
  | halt outcome returned left =>
    rcases halted_cases hstep with ⟨-, _, -, hemptied⟩ | ⟨-, -, -, hpopped⟩
    · exact .inl (congrArg State.frames hemptied)
    · exact .inr (h.popped hpopped)
  | fault fault left => exact .inr (h.popped (faulted_onlyPopped hstep))

end CallChain

theorem Machine.Faithful.initial (image : Image) {method : MethodId} (hmethod : method.Unambiguous) (values : List Value) :
    Machine.Faithful image ⟨State.initial method values, .ofImage image⟩ := by
  refine ⟨Store.faithful_ofImage image, fun frame hframe => ?_⟩
  obtain rfl := List.mem_singleton.1 hframe
  exact hmethod

/-! ## Runs -/

/-- The frames are a chain of calls from the entry method, and calls are taken back in order. -/
structure Machine.RestsOnCalls (image : Image) (entry : MethodId) (machine : Machine) : Prop where
  chain : CallChain image entry machine.state.frames
  /-- So they are in what the next step leaves, if it leaves any. -/
  left : (step machine).machine.state.frames = [] ∨ CallChain image entry (step machine).machine.state.frames
  /-- As long as no step returns from a frame, it is of the same method and above the same callers. -/
  frame {inner frame callers last} : machine.state.frames = inner ++ frame :: callers →
    ReachesOver (callers.length + 1) machine last →
    ∃ inner' frame', last.state.frames = inner' ++ frame' :: callers ∧ frame'.pc.method = frame.pc.method
  /-- The step that returns from a call has the caller go on right behind the `invoke` that made it. -/
  resumes {caller callers entered last back} : machine.state.frames = caller :: callers →
    step machine = .next .enter entered → ReachesOver (callers.length + 2) entered last →
    step last = .next .leave back → back.state.depth = callers.length + 1 →
    ∃ access method store stack, machine.At caller callers (.invoke access method) store ∧
      entered.state.frames.head?.map (·.pc) = some (.start method) ∧
      back.state.frames = { caller with pc := caller.pc.advance (.int 1), stack } :: callers

/-- In every state of a run from a method's first one, over an image whose methods cannot be
taken for one another, each frame below the innermost rests on the call of the one above it. -/
theorem suspended_frames_rest_on_calls (himage : image.Unambiguous) (hentry : entry.Unambiguous) {values : List Value}
    {k : Nat} {machine : Machine} (h : Reaches ⟨State.initial entry values, .ofImage image⟩ k machine) :
    machine.RestsOnCalls image entry := by
  have hfirst := Machine.Faithful.initial image hentry values
  have hkept : Machine.Faithful image machine ∧ CallChain image entry machine.state.frames := by
    refine h.keeps (I := fun m => Machine.Faithful image m ∧ CallChain image entry m.state.frames) ?_ ⟨hfirst, .entry rfl⟩
    rintro m move next hstep ⟨hfaithful, hchain⟩
    exact ⟨hfaithful.reaches himage (.step .refl hstep), hchain.step hfaithful hstep⟩
  obtain ⟨hfaithful, hchain⟩ := hkept
  exact {
    chain := hchain
    left := hchain.left hfaithful
    frame := fun hframes hover => hover.frame_kept hframes
    resumes := fun hframes henter hover hleave hdepth => resumes_behind_call hframes henter hover hleave hdepth }

end Chains

open Sample in
/-- In the small program the caller rests on its call of the method that finds the first item. -/
theorem caller_rests_on_call : ∃ machine,
    Reaches ⟨State.initial (method "main") [.array (.primitive .int) [.int 7, .int 8]], .ofImage image⟩ 2 machine ∧
      machine.state.frames.map (·.pc) = [.start (method "first"), ⟨method "main", .int 1⟩] ∧
      machine.RestsOnCalls image (method "main") := by
  have hload : step ⟨State.initial (method "main") [.array (.primitive .int) [.int 7, .int 8]], .ofImage image⟩ =
      .next .stay ⟨⟨⟨#[.array (.primitive .int) [.int 7, .int 8]]⟩,
        [⟨⟨method "main", .int 1⟩, [(.int 0, .reference (some (.int 0)))], [.reference (some (.int 0))]⟩], []⟩,
        ⟨image, [((method "main").text, mainCode)], []⟩⟩ := rfl
  have hreaches := (Reaches.refl.step hload).step (show step _ = .next .enter _ from rfl)
  exact ⟨_, hreaches, rfl, suspended_frames_rest_on_calls unambiguous_image (unambiguous_method (by decide)) hreaches⟩

end Bytecode
