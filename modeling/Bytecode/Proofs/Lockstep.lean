import Bytecode.Proofs.Failure
/-!
# Steps in lockstep

Two machines whose stores give like answers and whose states agree, but for
callers that only one of them has below its frames, take the same steps:
instructions see the store only through lookups (`ChecksThenWrites.matched`) and
no caller at all, so `step_under` follows from how a step applies control. The
one difference is the return that ends the program of the machine without
callers: the other one goes on in the caller.
-/
namespace Bytecode

/-! ## Actions with like results -/

/-- Both answered, with like answers, or both failed, with like failures, and
their states are alike. -/
def Matched {ε σ α : Type} (S : σ → σ → Prop) (E : ε → ε → Prop) (V : α → α → Prop) :
    EStateM.Result ε σ α → EStateM.Result ε σ α → Prop
  | .ok a s, .ok b s' => V a b ∧ S s s'
  | .error e s, .error e' s' => E e e' ∧ S s s'
  | _, _ => False

theorem Matched.cases {ε σ α : Type} {S : σ → σ → Prop} {E : ε → ε → Prop} {V : α → α → Prop}
    {r r' : EStateM.Result ε σ α} (h : Matched S E V r r') :
    (∃ a s b s', r = .ok a s ∧ r' = .ok b s' ∧ V a b ∧ S s s') ∨
      ∃ e s e' s', r = .error e s ∧ r' = .error e' s' ∧ E e e' ∧ S s s' := by
  cases r with
  | ok a s =>
    cases r' with
    | ok b s' => exact .inl ⟨a, s, b, s', rfl, rfl, h⟩
    | error e' s' => exact h.elim
  | error e s =>
    cases r' with
    | ok b s' => exact h.elim
    | error e' s' => exact .inr ⟨e, s, e', s', rfl, rfl, h⟩

/-- Actions that end alike, followed by actions that do so after the answers they can get. -/
theorem Matched.bind_ok {ε σ α β : Type} {S : σ → σ → Prop} {E : ε → ε → Prop} {U : α → α → Prop}
    {V : β → β → Prop} {x x' : EStateM ε σ α} {f f' : α → EStateM ε σ β} {s s' : σ}
    (hx : Matched S E U (x s) (x' s'))
    (hf : ∀ a b t t', x s = .ok a t → U a b → S t t' → Matched S E V (f a t) (f' b t')) :
    Matched S E V ((x >>= f) s) ((x' >>= f') s') := by
  rw [bind_apply, bind_apply]
  rcases hx.cases with ⟨a, t, b, t', hs, hs', hab, ht⟩ | ⟨e, t, e', t', hs, hs', he, ht⟩
  · rw [hs, hs']
    exact hf a b t t' hs hab ht
  · rw [hs, hs']
    exact ⟨he, ht⟩

theorem Matched.bind {ε σ α β : Type} {S : σ → σ → Prop} {E : ε → ε → Prop} {U : α → α → Prop}
    {V : β → β → Prop} {x : EStateM ε σ α} {f : α → EStateM ε σ β} {s s' : σ} (hx : Matched S E U (x s) (x s'))
    (hf : ∀ a b t t', U a b → S t t' → Matched S E V (f a t) (f b t')) :
    Matched S E V ((x >>= f) s) ((x >>= f) s') :=
  hx.bind_ok fun a b t t' _ => hf a b t t'

/-- Stores related by `R` answer alike what instructions ask of them about classes
with the property `N`, with faults that `F` relates. -/
structure LikeStores (N : Text → Prop) (R : Store → Store → Prop) (F : Fault → Fault → Prop) : Prop where
  refl : ∀ fault, F fault fault
  freshFields : ∀ className, N className → ∀ s s', R s s' →
    Matched R F (fun info info' => Exec.freshFields info = Exec.freshFields info')
      (Store.classInfo className s) (Store.classInfo className s')
  staticValue : ∀ field : FieldRef, N field.className → ∀ s s', R s s' →
    Matched R F Eq (Store.staticValue field s) (Store.staticValue field s')

/-- The same activation, but for the store. -/
def Activation.Like (R : Store → Store → Prop) (act act' : Activation) : Prop :=
  ∃ store, R act.store store ∧ act' = { act with store }

/-- The same outcome, or related faults. -/
def Stop.Like (F : Fault → Fault → Prop) : Stop → Stop → Prop
  | .halt outcome, .halt outcome' => outcome = outcome'
  | .fault f, .fault f' => F f f'
  | _, _ => False

section Actions

variable {N : Text → Prop} {R : Store → Store → Prop} {F : Fault → Fault → Prop} {act act' : Activation} {α : Type}

namespace Exec

theorem matched_pure (a : α) (h : act.Like R act') :
    Matched (Activation.Like R) (Stop.Like F) Eq ((pure a : Exec α) act) ((pure a : Exec α) act') :=
  ⟨rfl, h⟩

theorem matched_onStore {V : α → α → Prop} {action : EStateM Fault Store α}
    (haction : ∀ s s', R s s' → Matched R F V (action s) (action s')) (h : act.Like R act') :
    Matched (Activation.Like R) (Stop.Like F) V (onStore action act) (onStore action act') := by
  obtain ⟨store, hstore, rfl⟩ := h
  unfold onStore
  rcases (haction act.store store hstore).cases with ⟨a, t, b, t', hs, hs', hab, ht⟩ | ⟨e, t, e', t', hs, hs', he, ht⟩
  · rw [hs, hs']
    exact ⟨hab, t', ht, rfl⟩
  · rw [hs, hs']
    exact ⟨he, t', ht, rfl⟩

/-- Checks end alike in like activations. -/
theorem Checks.matched (hlike : LikeStores N R F) {x : Exec α} (hx : Checks N x) (h : act.Like R act') :
    Matched (Activation.Like R) (Stop.Like F) Eq (x act) (x act') := by
  induction hx generalizing act act' with
  | pure a => exact matched_pure a h
  | raise fault => exact ⟨hlike.refl fault, h⟩
  | halt ho => exact ⟨rfl, h⟩
  | pop =>
    obtain ⟨store, hstore, rfl⟩ := h
    rw [pop_apply, pop_apply]
    cases act.frame.stack with
    | nil => exact ⟨hlike.refl _, store, hstore, rfl⟩
    | cons v rest => exact ⟨rfl, store, hstore, rfl⟩
  | freshFields className hname =>
    exact (matched_onStore (hlike.freshFields className hname) h).bind fun info info' t t' hinfo ht => ⟨hinfo, ht⟩
  | staticValue field hname => exact matched_onStore (hlike.staticValue field hname) h
  | @get α f hblind hf ih =>
    obtain ⟨store, hstore, rfl⟩ := h
    change Matched _ _ _ (f act act) (f { act with store } { act with store })
    -- What is read does not depend on the store.
    rw [hblind act store]
    exact ih act ⟨store, hstore, rfl⟩
  | bind hx hf ihx ihf => exact (ihx h).bind fun a b t t' hab ht => hab ▸ ihf a ht

/-- Instructions end alike in like activations. -/
theorem ChecksThenWrites.matched (hlike : LikeStores N R F) {x : Exec Control} (hx : ChecksThenWrites N x)
    (h : act.Like R act') : Matched (Activation.Like R) (Stop.Like F) Eq (x act) (x act') := by
  induction hx generalizing act act' with
  | checks hx => exact hx.matched hlike h
  | @write update control hblind =>
    obtain ⟨store, hstore, rfl⟩ := h
    -- A write that does not see the store keeps it.
    have hkeeps : (update act).store = act.store := by
      have hsame := congrArg Activation.store (hblind act act.store)
      exact hsame
    exact ⟨rfl, store, hkeeps ▸ hstore, hblind act store⟩
  | @get f hblind hf ih =>
    obtain ⟨store, hstore, rfl⟩ := h
    change Matched _ _ _ (f act act) (f { act with store } { act with store })
    rw [hblind act store]
    exact ih act ⟨store, hstore, rfl⟩
  | bind hx hf ih => exact (hx.matched hlike h).bind fun a b t t' hab ht => hab ▸ ih a ht

end Exec

end Actions

/-! ## Machines -/

/-- The state with more callers below its frames. -/
def State.above (state : State) (base : List Frame) : State := { state with frames := state.frames ++ base }

section Machines

variable (R : Store → Store → Prop) (F : Fault → Fault → Prop) (base : List Frame)

/-- The second machine has the first one's state over a base of callers. -/
structure Machine.Under (machine above : Machine) : Prop where
  state : above.state = machine.state.above base
  store : R machine.store above.store

/-- How the results of a step correspond in a machine and in one over a base. -/
inductive StepResult.Under : StepResult → StepResult → Prop
  | next {move machine above} : Machine.Under R base machine above → Under (.next move machine) (.next move above)
  | halt {outcome returned machine above} : outcome ≠ .ok → Machine.Under R base machine above →
      Under (.halt outcome returned machine) (.halt outcome returned above)
  | fault {fault fault' machine above} : F fault fault' → Machine.Under R base machine above →
      Under (.fault fault machine) (.fault fault' above)
  | finish {returned machine above} : base = [] → Machine.Under R base machine above →
      Under (.halt .ok returned machine) (.halt .ok returned above)
  /-- Where one program ends, the other goes on in the first frame of the base. -/
  | resume {returned machine above caller callers} : base = caller :: callers → machine.state.frames = [] →
      R machine.store above.store →
      above.state = { machine.state with frames := caller.resume returned :: callers } →
      Under (.halt .ok returned machine) (.next .leave above)

variable {R F base}

/-- Control applied above a base. -/
theorem control_under {act act' : Activation} (h : act.Like R act') (callers : List Frame) (control : Control) :
    StepResult.Under R F base (control.apply act callers) (control.apply act' (callers ++ base)) := by
  obtain ⟨store, hstore, rfl⟩ := h
  cases control with
  | leave returned =>
    cases callers with
    | cons caller callers =>
      change StepResult.Under R F base (finish act returned (caller :: callers))
        (finish { act with store } returned (caller :: (callers ++ base)))
      rw [finish_apply, finish_apply]
      exact .next ⟨rfl, hstore⟩
    | nil =>
      cases base with
      | nil => exact .finish rfl ⟨rfl, hstore⟩
      | cons caller callers =>
        -- One program is at its end, the other one returns into the base.
        change StepResult.Under R F _ _ (finish { act with store } returned (caller :: callers))
        rw [finish_apply]
        exact .resume rfl rfl hstore rfl
  | _ => exact .next ⟨rfl, hstore⟩

theorem stop_under {act act' : Activation} (h : act.Like R act') (callers : List Frame) {stop stop' : Stop}
    (hstop : stop.Like F stop') (hok : stop ≠ .halt .ok) :
    StepResult.Under R F base (stop.apply act callers) (stop'.apply act' (callers ++ base)) := by
  obtain ⟨store, hstore, rfl⟩ := h
  cases stop with
  | halt outcome =>
    cases stop' with
    | halt outcome' =>
      obtain rfl : outcome = outcome' := hstop
      exact .halt (by simpa using hok) ⟨rfl, hstore⟩
    | fault f => exact hstop.elim
  | fault f =>
    cases stop' with
    | halt outcome' => exact hstop.elim
    | fault f' => exact .fault hstop ⟨rfl, hstore⟩

/-- A step of a machine and the step of one over a base correspond, if they
fetch alike and the stores answer alike about the class that is looked up. -/
theorem step_under {machine above : Machine} (h : Machine.Under R base machine above)
    {frame : Frame} {callers : List Frame} (hframes : machine.state.frames = frame :: callers)
    (hlike : ∀ i store, Store.fetch frame.pc machine.store = .ok i store →
      LikeStores (fun className => i.class? = some className) R F)
    (hfetch : Matched R F Eq (Store.fetch frame.pc machine.store) (Store.fetch frame.pc above.store)) :
    StepResult.Under R F base (step machine) (step above) := by
  rcases above with ⟨_, store'⟩
  obtain ⟨rfl, hstore⟩ := h
  have hframes' : (machine.state.above base).frames = frame :: (callers ++ base) := by
    simp [State.above, hframes]
  rw [step_cons hframes, step_cons hframes']
  rcases hfetch.cases with ⟨instruction, s, _, s', hs, hs', rfl, hstores⟩ | ⟨f, s, f', s', hs, hs', hf, hstores⟩
  -- They fetch the same instruction, and go on in like activations.
  · rw [hs, hs']
    have hacts : Activation.Like R ⟨frame, machine.state.heap, machine.state.statics, s⟩
        ⟨frame, (machine.state.above base).heap, (machine.state.above base).statics, s'⟩ := ⟨s', hstores, rfl⟩
    have hchecks := Exec.execute_checks instruction
    rcases (hchecks.matched (hlike instruction s hs) hacts).cases with
      ⟨control, act, _, act', hone, htwo, rfl, hlast⟩ | ⟨stop, act, stop', act', hone, htwo, hstop, hlast⟩
    · simp only [hone, htwo]
      exact control_under hlast callers control
    · simp only [hone, htwo]
      exact stop_under hlast callers hstop (hchecks.popped hone).2
  · rw [hs, hs']
    exact .fault hf ⟨rfl, hstores⟩

/-- Without frames and without callers below, both steps fail alike. -/
theorem step_under_nil {machine other : Machine} (h : Machine.Under R [] machine other)
    (hframes : machine.state.frames = []) (hfault : F (.malformed .callStackEmpty) (.malformed .callStackEmpty)) :
    StepResult.Under R F [] (step machine) (step other) := by
  have hother : other.state.frames = [] := by
    rw [h.state, State.above, hframes]
    rfl
  simp only [step, hframes, hother]
  exact .fault hfault h

end Machines

/-! ## Stores along a step -/

theorem StepResult.Under.store {R : Store → Store → Prop} {F : Fault → Fault → Prop} {base : List Frame}
    {result result' : StepResult} (h : StepResult.Under R F base result result') :
    R result.machine.store result'.machine.store := by
  cases h with
  | next h => exact h.store
  | halt _ h => exact h.store
  | fault _ h => exact h.store
  | finish _ h => exact h.store
  | resume _ _ h _ => exact h

theorem Matched.self {ε σ α : Type} {I : σ → Prop} {r : EStateM.Result ε σ α} (h : I (final r)) :
    Matched (fun s s' => s' = s ∧ I s) Eq Eq r r := by
  cases r with
  | ok a s => exact ⟨rfl, rfl, h⟩
  | error e s => exact ⟨rfl, rfl, h⟩

theorem Matched.mono {ε σ α : Type} {S : σ → σ → Prop} {E : ε → ε → Prop} {U V : α → α → Prop}
    {r r' : EStateM.Result ε σ α} (h : Matched S E U r r') (huv : ∀ a b, U a b → V a b) : Matched S E V r r' := by
  rcases h.cases with ⟨a, s, b, s', rfl, rfl, hab, hs⟩ | ⟨e, s, e', s', rfl, rfl, he, hs⟩
  · exact ⟨huv a b hab, hs⟩
  · exact ⟨he, hs⟩

/-- What looking up declarations keeps true of a store, and fetching the next
instruction too, a step keeps true. -/
theorem step_store {I : Store → Prop} (hclass : ∀ className s, I s → I (final (Store.classInfo className s)))
    {machine : Machine} (h : I machine.store)
    (hfetch : ∀ frame ∈ machine.state.frames, I (final (Store.fetch frame.pc machine.store))) :
    I (step machine).machine.store := by
  cases hframes : machine.state.frames with
  | nil =>
    simp only [step, hframes]
    exact h
  | cons frame callers =>
    -- The machine beside itself, over no callers.
    have hself : Machine.Under (fun s s' => s' = s ∧ I s) [] machine machine := ⟨by simp [State.above], rfl, h⟩
    have hlike : ∀ N, LikeStores N (fun s s' => s' = s ∧ I s) Eq := by
      refine fun N => ⟨fun _ => rfl, ?_, ?_⟩
      · rintro className - s _ ⟨rfl, hs⟩
        exact (Matched.self (hclass className _ hs)).mono fun _ _ => congrArg _
      · rintro field - s _ ⟨rfl, hs⟩
        exact .self ((Store.staticValue_eq field _).2 ▸ hclass field.className _ hs)
    have hmatched := Matched.self (hfetch frame (by simp [hframes]))
    exact (step_under hself hframes (fun _ _ _ => hlike _) hmatched).store.2

end Bytecode
