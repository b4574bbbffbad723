import Bytecode.Proofs.Arguments
import Bytecode.Proofs.Integrity
import Bytecode.Proofs.Rounds
/-!
# References stay intact

A run over decoded code that begins with arguments read from a text never meets
a reference behind which there is nothing, and never runs out of frames. What
carries this is `Machine.Sound`: it holds of the first machine and is kept by
every step, and a step of a sound machine does not fail with the fault of a
broken one.
-/
namespace Bytecode

/-- There is a frame to go on in, all values are within the heap, and all code is decoded. -/
structure Machine.Sound (machine : Machine) : Prop where
  frames : machine.state.frames ≠ []
  values : machine.state.Within
  store : machine.store.Decoded

/-! ## Steps -/

/-- The activation on top of a sound machine. -/
theorem State.All.activation {P : Value → Prop} {state : State} (h : state.All P) {frame : Frame} {callers : List Frame}
    (hframes : state.frames = frame :: callers) (store : Store) :
    Activation.All P ⟨frame, state.heap, state.statics, store⟩ :=
  ⟨h.frames frame (hframes ▸ List.mem_cons_self), h.heap, h.statics⟩

/-- An activation put back on top of its callers. -/
theorem Activation.All.machine {P : Value → Prop} {act : Activation} (h : act.All P) {frames : List Frame}
    (hframes : ∀ frame ∈ frames, frame.All P) : (act.machine frames).state.All P :=
  ⟨hframes, h.heap, h.statics⟩

theorem Frame.All.resume {P : Value → Prop} {caller : Frame} (h : caller.All P) {returned : Option Value}
    (hreturned : ∀ v ∈ returned, P v) : (caller.resume returned).All P := by
  cases returned with
  | none => exact h.advance _
  | some v => exact (h.push (hreturned v rfl)).advance _

/-- Control puts the values it carries where they belong, and nothing else. -/
theorem Control.All.frames {P : Value → Prop} {act : Activation} (hact : act.All P) {callers : List Frame}
    (hcallers : ∀ frame ∈ callers, frame.All P) {control : Control} (hcontrol : control.All P) :
    ∀ frame ∈ control.frames act callers, frame.All P := by
  cases control with
  | next => exact List.forall_mem_cons.2 ⟨hact.frame.advance _, hcallers⟩
  | jump target => exact List.forall_mem_cons.2 ⟨⟨hact.frame.locals, hact.frame.stack⟩, hcallers⟩
  | call callee => exact List.forall_mem_cons.2 ⟨hcontrol, List.forall_mem_cons.2 ⟨hact.frame, hcallers⟩⟩
  | leave returned =>
    cases callers with
    | nil =>
      intro frame hframe
      exact absurd hframe List.not_mem_nil
    | cons caller callers =>
      -- What is returned moves to the operand stack of the caller.
      obtain ⟨hcaller, hrest⟩ := List.forall_mem_cons.1 hcallers
      exact List.forall_mem_cons.2 ⟨hcaller.resume hcontrol, hrest⟩

namespace Machine.Sound

variable {machine : Machine}

/-- A sound machine goes on as a sound machine. -/
theorem next (h : machine.Sound) {move : Move} {next : Machine} (hstep : step machine = .next move next) :
    next.Sound := by
  have hstore := step_store (fun className s (hs : s.Decoded) => hs.classInfo className) h.store
    fun frame _ => h.store.fetch frame.pc
  rw [hstep] at hstore
  refine ⟨frames_ne_nil_of_step hstep, ?_, hstore⟩
  obtain ⟨frame, callers, i, store, control, act, hframes, hfetch, heffect, rfl, -⟩ := completed_of_next hstep
  have hact := h.values.activation hframes store
  obtain ⟨hact', hcontrol⟩ := heffect.within (h.store.plain_of_fetch hfetch) hact
  -- The callers' values stay within a heap that only grows.
  have hcallers : ∀ caller ∈ callers, caller.All (Value.Within act.heap.size) := by
    intro caller hcaller
    have hold := h.values.frames caller (hframes ▸ List.mem_cons_of_mem _ hcaller)
    exact hold.mono fun v hv => hv.mono heffect.heap_size_le
  exact hact'.machine (hcontrol.frames hact' hcallers)

theorem backed {state : State} (h : state.Within) {frame : Frame} {callers : List Frame}
    (hframes : state.frames = frame :: callers) (store : Store) :
    Exec.Backed ⟨frame, state.heap, state.statics, store⟩ := by
  intro key hkey
  have hwithin := (h.frames frame (hframes ▸ List.mem_cons_self)).stack _ hkey
  -- Of the three forms of such a value only the last has a key.
  generalize hv : Value.reference (some key) = v at hwithin
  cases hwithin with
  | scalar p n => cases p <;> cases hv
  | null => cases hv
  | reference hlt =>
    cases hv
    exact Heap.get?_isSome_iff.2 ⟨_, hlt, rfl⟩

/-- A step of a sound machine does not find it broken. -/
theorem fault (h : machine.Sound) {fault : Fault} {left : Machine} (hstep : step machine = .fault fault left) :
    ¬fault.Broken := by
  have hcases := step_cases machine
  rw [hstep] at hcases
  cases hcases with
  | noFrame hframes hresult => exact absurd hframes h.frames
  -- There is no body for the method, or the body has no such instruction.
  | unfetched hframes hfetch hresult =>
    cases hresult
    rcases h.store.fault_of_fetch hfetch with himage | ⟨length, rfl⟩
    · exact himage.not_broken
    · exact id
  | @stopped frame callers i store stop act hframes hfetch hexecute hresult =>
    cases stop with
    | halt outcome => cases hresult
    | fault fault' =>
      cases hresult
      exact Exec.execute_intact (backed h.values hframes store) i _ _ hexecute
  | @completed frame callers i store control act hframes hfetch hexecute hresult =>
    rcases control.apply_cases act callers with ⟨move, happly, -⟩ | ⟨returned, -, -, happly⟩
    · rw [happly] at hresult
      cases hresult
    · rw [happly] at hresult
      cases hresult

theorem reaches {first last : Machine} {k : Nat} (h : first.Sound) (hreaches : Reaches first k last) :
    last.Sound :=
  hreaches.keeps (fun _ _ _ hstep hmachine => hmachine.next hstep) h

/-- A method begins in a sound machine. -/
theorem initial {image : Image} (himage : image.Decoded) (method : MethodId) {values : List Value}
    (hvalues : ∀ v ∈ values, v.Literal) : Machine.Sound ⟨State.initial method values, .ofImage image⟩ where
  frames := List.cons_ne_nil _ _
  values := State.within_initial method hvalues
  store := Store.decoded_ofImage himage

end Machine.Sound

/-! ## Runs -/

/-- A scalar, the null reference, or a key behind which there is an entry. -/
def Value.LiveIn (heap : Heap) (v : Value) : Prop :=
  v.toInt?.isSome ∨ v = .null ∨ ∃ key, v = .reference (some key) ∧ (heap.get? key).isSome

theorem Value.Within.live {heap : Heap} {v : Value} (h : v.Within heap.size) : v.LiveIn heap := by
  cases h with
  | scalar p n => cases p <;> exact .inl rfl
  | null => exact .inr (.inl rfl)
  | reference hlt => exact .inr (.inr ⟨_, rfl, Heap.get?_isSome_iff.2 ⟨_, hlt, rfl⟩⟩)

/-- In every state of a run over class files or decoded code, from any method and any arguments
that a text lists, there is a frame, and what sits in local slots, operand
stacks, arrays, objects and static fields is a scalar, null or the key of an
entry. So neither a step nor an interpreter's run fails for want of an entry or
a frame. -/
theorem references_stay_intact {image : Image} (himage : image.RegistersDecoded) (method : MethodId) {text : Text}
    {values : List Value} (hparse : Arguments.parse text = .ok values) :
    (∀ k machine, Reaches ⟨State.initial method values, .ofImage image⟩ k machine →
      machine.state.frames ≠ [] ∧ machine.state.All (Value.LiveIn machine.state.heap) ∧
        ∀ fault left, step machine = .fault fault left → ¬fault.Broken) ∧
    ∀ interpreter : Interpreter, interpreter.image = image →
      ∀ fault, (interpreter.runMethod method values).1 = .error fault → ¬fault.Broken := by
  have hfirst := Machine.Sound.initial himage.decoded method (Arguments.parse_literal hparse)
  constructor
  · intro k machine hreaches
    have hsound := hfirst.reaches hreaches
    exact ⟨hsound.frames, hsound.values.mono fun v hv => hv.live, fun fault left hstep => hsound.fault hstep⟩
  · rintro interpreter rfl fault hfault
    obtain ⟨k, left, j, last, -, hreaches, hstep⟩ := Interpreter.faults_of_execute hfault
    -- Noting the first lines is all that comes before the run.
    have himage' : (interpreter.note (Interpreter.initialLines (State.initial method values))).image =
        interpreter.image := by
      unfold Interpreter.note
      split <;> rfl
    unfold Interpreter.machine at hreaches
    rw [himage'] at hreaches
    exact (hfirst.reaches hreaches).fault hstep

namespace Sample

/-- The record of an instruction. -/
def record (opcode : Text) (members : List (Text × Json)) : Json := .object (("opr", .string opcode) :: members)

/-- The record of an instruction that names a type. -/
def typed (opcode type : Text) (members : List (Text × Json)) : Json :=
  record opcode (("type", .string type) :: members)

theorem decoded_firstCode : firstCode.Decoded :=
  ⟨[typed "load" "ref" [("index", .number (.int 0))],
    record "push" [("value", .object [("type", .string "int"), ("value", .number (.int 0))])],
    typed "array_load" "int" [],
    typed "return" "int" []], rfl⟩

theorem decoded_mainCode : mainCode.Decoded :=
  ⟨[typed "load" "ref" [("index", .number (.int 0))],
    record "invoke" [("access", .string "static"),
      ("method", .object [("class", .string "Sample"), ("name", .string "first"),
        ("args", .array [.object [("kind", .string "array"), ("type", .string "int")]]), ("returns", .string "int")])],
    typed "return" "int" []], rfl⟩

theorem decoded_image : image.Decoded := by
  refine Image.decoded_registry fun code hcode => ?_
  have hcodes : code ∈ [firstCode, mainCode] := hcode
  simp only [List.mem_cons, List.not_mem_nil, or_false] at hcodes
  rcases hcodes with rfl | rfl
  · exact decoded_firstCode
  · exact decoded_mainCode

end Sample

open Sample in
/-- Whatever state the small program reaches from an array argument, the array is there. -/
theorem array_argument_stays : ∃ values, Arguments.parse "([I:7,8])" = .ok values ∧
    ∀ k machine, Reaches ⟨State.initial (method "main") values, .ofImage image⟩ k machine →
      machine.state.frames ≠ [] ∧ machine.state.All (Value.LiveIn machine.state.heap) := by
  have himage : image.RegistersDecoded := decoded_image
  have hok : (Arguments.parse "([I:7,8])").isOk = true := by decide +kernel
  cases hparse : Arguments.parse "([I:7,8])" with
  | error fault =>
    rw [hparse] at hok
    cases hok
  | ok values =>
    refine ⟨values, rfl, fun k machine hreaches => ?_⟩
    obtain ⟨hframes, hlive, -⟩ := (references_stay_intact himage (method "main") hparse).1 k machine hreaches
    exact ⟨hframes, hlive⟩

end Bytecode
