import Bytecode.Proofs.Lockstep
import Bytecode.Proofs.Values
/-!
# Runs as sequences of steps

`Reaches` counts the steps that lead from one machine to another, `Halts` and
`Faults` say with which step a run ends. A machine is `Faithful` to an image if
its store is and all methods on its call stack have unambiguous identifiers;
over an `Unambiguous` image every step keeps that (`Machine.Faithful.step`), and
two stores faithful to one image are `LikeStores`.
-/
namespace Bytecode

/-- That many steps, all going on, lead from the first machine to another. -/
inductive Reaches (first : Machine) : Nat → Machine → Prop
  | refl : Reaches first 0 first
  | step {k : Nat} {machine next : Machine} {move : Move} :
      Reaches first k machine → Bytecode.step machine = .next move next → Reaches first (k + 1) next

/-- The step of that number ends the program. -/
def Halts (first : Machine) (k : Nat) (outcome : Outcome) (returned : Option Value) (left : Machine) : Prop :=
  ∃ j last, k = j + 1 ∧ Reaches first j last ∧ step last = .halt outcome returned left

/-- The step of that number fails. -/
def Faults (first : Machine) (k : Nat) (fault : Fault) (left : Machine) : Prop :=
  ∃ j last, k = j + 1 ∧ Reaches first j last ∧ step last = .fault fault left

theorem Reaches.trans {j k : Nat} {first machine last : Machine} (h : Reaches first j machine)
    (h' : Reaches machine k last) : Reaches first (j + k) last := by
  induction h' with
  | refl => exact h
  | step _ hstep ih => exact .step ih hstep

theorem Reaches.frames_ne_nil {first last : Machine} {k : Nat} (h : Reaches first k last)
    (hfirst : first.state.frames ≠ []) : last.state.frames ≠ [] := by
  cases h with
  | refl => exact hfirst
  | step _ hstep => exact frames_ne_nil_of_step hstep

/-- What every step that goes on keeps, a run keeps. -/
theorem Reaches.keeps {I : Machine → Prop}
    (hstep : ∀ machine move next, Bytecode.step machine = .next move next → I machine → I next)
    {first last : Machine} {k : Nat} (h : Reaches first k last) (hfirst : I first) : I last := by
  induction h with
  | refl => exact hfirst
  | step _ hnext ih => exact hstep _ _ _ hnext ih

/-- What looking up declarations and fetching instructions keep true of a store, a run keeps true. -/
theorem Reaches.keeps_store {I : Store → Prop} (hclass : ∀ className s, I s → I (final (Store.classInfo className s)))
    (hfetch : ∀ pc s, I s → I (final (Store.fetch pc s))) {first last : Machine} {k : Nat} (h : Reaches first k last)
    (hfirst : I first.store) : I last.store := by
  refine h.keeps (I := fun machine => I machine.store) (fun machine move next hnext hmachine => ?_) hfirst
  have hstore := step_store hclass hmachine fun frame _ => hfetch frame.pc _ hmachine
  rw [hnext] at hstore
  exact hstore

/-! ## The methods on the call stack -/

theorem Effect.pc_eq {act act' : Activation} {instruction : Instruction} {control : Control}
    (h : Effect act instruction control act') : act'.frame.pc = act.frame.pc := by
  cases h <;> rfl

/-- What is called is what an `invoke` names; the caller has lost its operands and nothing else. -/
theorem Effect.call_eq {act act' : Activation} {instruction : Instruction} {callee : Frame}
    (h : Effect act instruction (.call callee) act') :
    ∃ access method args rest, instruction = .invoke access method ∧
      ¬(access = .special ∧ method.isObjectConstructor = true) ∧ callee = Frame.start method args ∧
      act' = act.withStack rest := by
  cases h with
  | call hroot => exact ⟨_, _, _, _, rfl, hroot, rfl, rfl⟩
  | branch _ _ _ _ hcontrol => exact absurd hcontrol (call_ne_branchTo _ _ _)
  | branchZero _ _ _ hcontrol => exact absurd hcontrol (call_ne_branchTo _ _ _)

/-- A step puts no method on the call stack but the one that its `invoke` names. -/
theorem step_methods {U : MethodId → Prop} {machine : Machine}
    (hframes : ∀ frame ∈ machine.state.frames, U frame.pc.method)
    (hcalls : ∀ frame callers access callee store,
      machine.At frame callers (.invoke access callee) store → U callee) :
    ∀ frame ∈ (step machine).machine.state.frames, U frame.pc.method := by
  cases step_cases machine with
  | noFrame hnil hresult =>
    rw [hresult]
    exact hframes
  | unfetched hstack hfetch hresult =>
    rw [hresult]
    exact hframes
  | @stopped frame callers instruction store stop act hstack hfetch hexecute hresult =>
    rw [hresult, Stop.machine_apply]
    rw [hstack] at hframes
    -- Popping does not touch the program counter.
    obtain ⟨⟨rest, store', -, rfl⟩, -⟩ := (Exec.execute_checks instruction).popped hexecute
    exact List.forall_mem_cons.2 (List.forall_mem_cons.1 hframes)
  | @completed frame callers instruction store control act hstack hfetch hexecute hresult =>
    rw [hresult, Control.machine_apply]
    have heffect := Exec.effect_of_execute hexecute
    rw [hstack] at hframes
    obtain ⟨htop, hcallers⟩ := List.forall_mem_cons.1 hframes
    have hact : U act.frame.pc.method := heffect.pc_eq ▸ htop
    cases control with
    | next => exact List.forall_mem_cons.2 ⟨hact, hcallers⟩
    | jump target => exact List.forall_mem_cons.2 ⟨hact, hcallers⟩
    | call callee =>
      obtain ⟨access, method, args, _, rfl, -, rfl, -⟩ := heffect.call_eq
      have hcallee : U method := hcalls frame callers access method store ⟨hstack, hfetch⟩
      exact List.forall_mem_cons.2 ⟨hcallee, List.forall_mem_cons.2 ⟨hact, hcallers⟩⟩
    | leave returned =>
      cases callers with
      | nil =>
        intro f hf
        exact absurd hf List.not_mem_nil
      | cons caller callers =>
        obtain ⟨hcaller, hrest⟩ := List.forall_mem_cons.1 hcallers
        -- The caller goes on in its own method.
        exact List.forall_mem_cons.2 ⟨(caller.method_resume returned).symm ▸ hcaller, hrest⟩

/-! ## Faithful machines -/

/-- All methods that the image's code calls have unambiguous identifiers. -/
def Image.Unambiguous (image : Image) : Prop :=
  ∀ method code, answer (Image.code method image) = .ok code →
    ∀ access callee, Instruction.invoke access callee ∈ code → callee.Unambiguous

/-- A registry's image is unambiguous if the registered bodies call none but unambiguous methods. -/
theorem Image.unambiguous_registry {registry : Registry}
    (h : ∀ code ∈ registry.bodies, ∀ access callee, Instruction.invoke access callee ∈ code → callee.Unambiguous) :
    Unambiguous (.registry registry) := by
  intro method code hcode
  rw [Image.code, answer_ofRegistry] at hcode
  exact h code (Registry.mem_bodies hcode)

/-- The store keeps what the image answers, and the methods on the call stack
cannot be taken for others. -/
structure Machine.Faithful (image : Image) (machine : Machine) : Prop where
  store : Store.Faithful image machine.store
  frames : ∀ frame ∈ machine.state.frames, frame.pc.method.Unambiguous

/-- Both stores are faithful to the image. -/
def BothFaithful (image : Image) (store store' : Store) : Prop :=
  Store.Faithful image store ∧ Store.Faithful image store'

theorem Matched.of_answer {ε σ α : Type} {S : σ → σ → Prop} {r r' : EStateM.Result ε σ α}
    (hanswer : answer r = answer r') (hfinal : S (final r) (final r')) : Matched S Eq Eq r r' := by
  cases r with
  | ok a s => cases r' with
    | ok b s' => cases hanswer; exact ⟨rfl, hfinal⟩
    | error e s' => cases hanswer
  | error e s => cases r' with
    | ok b s' => cases hanswer
    | error e' s' => cases hanswer; exact ⟨rfl, hfinal⟩

/-- Stores that answer for every declaration alike, and go on to do so, answer alike what instructions ask. -/
theorem likeStores_of_answers {R : Store → Store → Prop} (h : ∀ className s s', R s s' →
      answer (Store.classInfo className s) = answer (Store.classInfo className s') ∧
        R (final (Store.classInfo className s)) (final (Store.classInfo className s'))) (N : Text → Prop) :
    LikeStores N R Eq where
  refl _ := rfl
  freshFields className _ s s' hs := by
    obtain ⟨hanswer, hfinal⟩ := h className s s' hs
    exact (Matched.of_answer hanswer hfinal).mono fun _ _ => congrArg _
  staticValue field _ s s' hs := by
    obtain ⟨hanswer, hfinal⟩ := h field.className s s' hs
    refine Matched.of_answer ?_ ?_
    · rw [(Store.staticValue_eq field s).1, (Store.staticValue_eq field s').1, hanswer]
    · rw [(Store.staticValue_eq field s).2, (Store.staticValue_eq field s').2]
      exact hfinal

/-- Stores faithful to one image answer alike. -/
theorem likeStores_faithful (image : Image) (N : Text → Prop) : LikeStores N (BothFaithful image) Eq := by
  refine likeStores_of_answers (fun className s s' h => ?_) N
  have hone := h.1.classInfo className
  have htwo := h.2.classInfo className
  exact ⟨hone.1.trans htwo.1.symm, hone.2, htwo.2⟩

theorem matched_fetch {image : Image} {store store' : Store} (h : BothFaithful image store store')
    {pc : ProgramCounter} (hm : pc.method.Unambiguous) :
    Matched (BothFaithful image) Eq Eq (Store.fetch pc store) (Store.fetch pc store') := by
  have hone := h.1.fetch hm
  have htwo := h.2.fetch hm
  exact .of_answer (hone.1.trans htwo.1.symm) ⟨hone.2, htwo.2⟩

/-- What a faithful store fetches is an instruction of the image's code. -/
theorem Store.Faithful.mem_of_fetch {image : Image} {store store' : Store} (h : Store.Faithful image store)
    {pc : ProgramCounter} (hm : pc.method.Unambiguous) {instruction : Instruction}
    (hfetch : Store.fetch pc store = .ok instruction store') :
    ∃ code, answer (Image.code pc.method image) = .ok code ∧ instruction ∈ code := by
  obtain ⟨body, hbody, hinstruction⟩ := Store.fetch_eq_ok.1 hfetch
  have hanswer := (h.code hm).1
  rw [hbody] at hanswer
  exact ⟨body, hanswer.symm, Store.mem_of_instruction? hinstruction⟩

/-- Whatever a step over an unambiguous image leaves is faithful again. -/
theorem Machine.Faithful.step {image : Image} (himage : image.Unambiguous) {machine : Machine}
    (h : Machine.Faithful image machine) : Machine.Faithful image (step machine).machine where
  store := by
    refine step_store (fun className s hs => (hs.classInfo className).2) h.store fun frame hframe => ?_
    exact (h.store.fetch (h.frames frame hframe)).2
  frames := by
    refine step_methods h.frames fun frame callers access callee store hat => ?_
    have hmem : frame ∈ machine.state.frames := hat.frames ▸ List.mem_cons_self
    obtain ⟨code, hcode, hinvoke⟩ := h.store.mem_of_fetch (h.frames frame hmem) hat.fetched
    exact himage _ code hcode access callee hinvoke

theorem Machine.Faithful.reaches {image : Image} (himage : image.Unambiguous) {first last : Machine} {k : Nat}
    (h : Machine.Faithful image first) (hreaches : Reaches first k last) : Machine.Faithful image last := by
  refine hreaches.keeps (fun machine move next hstep hmachine => ?_) h
  have hnext := hmachine.step himage
  rw [hstep] at hnext
  exact hnext

/-- A step of a faithful machine with frames, and the same step over a base. -/
theorem step_under_faithful {image : Image} {base : List Frame} {machine above : Machine}
    (hmachine : Machine.Faithful image machine) (hframes : machine.state.frames ≠ [])
    (habove : Machine.Under (BothFaithful image) base machine above) :
    StepResult.Under (BothFaithful image) Eq base (step machine) (step above) := by
  obtain ⟨frame, callers, hstack⟩ := List.exists_cons_of_ne_nil hframes
  have hm : frame.pc.method.Unambiguous := hmachine.frames frame (by simp [hstack])
  exact step_under habove hstack (fun _ _ _ => likeStores_faithful image _) (matched_fetch habove.store hm)

/-! ## Where instructions come from -/

/-- A store that knows an image's declarations, all bodies that it keeps being bodies of the image, under
whatever texts. -/
structure Store.Sourced (image : Image) (store : Store) : Prop where
  knows : Knows image store
  methods : Table.All (fun code => ∃ method, answer (Image.code method image) = .ok code) store.methods

namespace Store

variable {image : Image} {store : Store}

theorem sourced_ofImage (image : Image) : Sourced image (ofImage image) :=
  ⟨(faithful_ofImage image).knows, fun _ hentry => absurd hentry List.not_mem_nil⟩

theorem Sourced.code (h : Sourced image store) (method : MethodId) :
    (∀ code, answer (Store.code method store) = .ok code → ∃ method, answer (Image.code method image) = .ok code) ∧
      Sourced image (final (Store.code method store)) := by
  have hknows := h.knows.agrees.trans (image_code method store)
  rw [code_apply] at hknows ⊢
  cases hget : Table.get? method.text store.methods with
  | some code => exact ⟨fun _ hcode => Except.ok.inj hcode ▸ h.methods.get? hget, h⟩
  | none =>
    rw [hget] at hknows
    have hsame := h.knows.agrees.code method
    cases himage : Image.code method store.image with
    | error fault image' =>
      rw [himage] at hknows
      exact ⟨fun _ hcode => absurd hcode (by simp [answer]), ⟨hknows, h.knows.classes⟩, h.methods⟩
    | ok code image' =>
      rw [himage] at hknows hsame
      exact ⟨fun _ hcode => ⟨method, hsame.symm.trans hcode⟩, ⟨hknows, h.knows.classes⟩,
        h.methods.insert _ ⟨method, hsame.symm⟩⟩

theorem Sourced.fetch (h : Sourced image store) (pc : ProgramCounter) :
    Sourced image (final (Store.fetch pc store)) := by
  rw [(fetch_eq pc store).2]
  exact (h.code pc.method).2

theorem Sourced.classInfo (h : Sourced image store) (className : Text) :
    Sourced image (final (Store.classInfo className store)) :=
  ⟨(h.knows.classInfo className).2, methods_classInfo className store ▸ h.methods⟩

theorem Sourced.reaches {first last : Machine} {k : Nat} (h : first.store.Sourced image)
    (hreaches : Reaches first k last) : last.store.Sourced image :=
  hreaches.keeps_store (fun className _ hs => hs.classInfo className) (fun pc _ hs => hs.fetch pc) h

/-- A fetched instruction is one of the image's code, whatever identifiers look like. -/
theorem Sourced.mem_of_fetch (h : Sourced image store) {pc : ProgramCounter} {i : Instruction} {store' : Store}
    (hfetch : Store.fetch pc store = .ok i store') :
    ∃ method code, answer (Image.code method image) = .ok code ∧ i ∈ code := by
  obtain ⟨body, hbody, hinstruction⟩ := fetch_eq_ok.1 hfetch
  obtain ⟨method, hcode⟩ := (h.code pc.method).1 body (by rw [hbody]; rfl)
  exact ⟨method, body, hcode, mem_of_instruction? hinstruction⟩

end Store

/-! ## A small program -/

namespace Sample

/-- A method from arrays of integers to integers. -/
def method (name : Text) : MethodId := ⟨"Sample", name, [.array (.primitive .int)], some (.primitive .int)⟩

/-- The first item of an array. -/
def firstCode : Code := #[.load .ref 0, .push (.int 0), .arrayLoad (.primitive .int), .return (some .int)]

/-- Passes its argument on. -/
def mainCode : Code := #[.load .ref 0, .invoke .static (method "first"), .return (some .int)]

def image : Image :=
  .registry ((Registry.empty.addMethod (method "first") firstCode).addMethod (method "main") mainCode)

theorem unambiguous_method {name : Text} (h : CodeUnit.ofChar ':' ∉ name) : (method name).Unambiguous where
  className := by simp only [method]; decide
  name := h
  signature := ⟨by simp [method, Ty.Unambiguous], by simp [method, Ty.Unambiguous]⟩

theorem unambiguous_image : image.Unambiguous := by
  refine Image.unambiguous_registry fun code hcode access callee hmem => ?_
  have hcodes : code ∈ [firstCode, mainCode] := hcode
  simp only [List.mem_cons, List.not_mem_nil, or_false] at hcodes
  rcases hcodes with rfl | rfl
  · simp [firstCode] at hmem
  · obtain ⟨rfl, rfl⟩ : access = .static ∧ callee = method "first" := by simpa [mainCode] using hmem
    exact unambiguous_method (by decide)

end Sample

end Bytecode
