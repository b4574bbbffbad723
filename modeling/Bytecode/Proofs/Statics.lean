import Bytecode.Proofs.LastWrite
/-!
# Static fields

The values of static fields are kept by the texts of their references. We follow a run
with the list of its writes to static fields, the latest first (`Written`). What is
kept for a field is what the list says (`State.HoldsWrites`), and only a write to
the field itself changes it, so a read sees the last write wherever it was made, else
what the class declares (`statics_read_last_write`). A class file that cannot be decoded
declares nothing: reading from it fails as decoding it does.
-/
namespace Bytecode

/-! ## Writes -/

/-- The static field that an instruction reads or writes. -/
def Instruction.static? : Instruction → Option FieldRef
  | .get true field | .put true field => some field
  | _ => none

/-- What an instruction that completes writes to a static field. -/
def Instruction.staticWrite? (operands : OperandStack) : Instruction → Option (FieldRef × Value)
  | .put true field => operands.head?.map fun v => (field, v)
  | _ => none

/-- The run from a machine to another with what it wrote to static fields, the latest first. -/
inductive Written (first : Machine) : Nat → List (FieldRef × Value) → Machine → Prop
  | refl : Written first 0 [] first
  | step {k writes machine frame callers i store move next} : Written first k writes machine →
      machine.At frame callers i store → Bytecode.step machine = .next move next →
      Written first (k + 1) ((i.staticWrite? frame.stack).toList ++ writes) next

theorem Reaches.written {first last : Machine} {k : Nat} (h : Reaches first k last) :
    ∃ writes, Written first k writes last := by
  induction h with
  | refl => exact ⟨[], .refl⟩
  | step _ hstep ih =>
    obtain ⟨writes, hwrites⟩ := ih
    obtain ⟨frame, callers, i, store, hat⟩ := at_of_next hstep
    exact ⟨_, hwrites.step hat hstep⟩

theorem Written.reaches {first last : Machine} {writes : List (FieldRef × Value)} {k : Nat}
    (h : Written first k writes last) : Reaches first k last := by
  induction h with
  | refl => exact .refl
  | step _ _ hstep ih => exact ih.step hstep

/-- All that an instruction does to static fields. -/
theorem Effect.statics_eq {act act' : Activation} {i : Instruction} {control : Control} (h : Effect act i control act') :
    act'.statics = match i.staticWrite? act.frame.stack with
      | some (field, v) => Table.insert field.text v act.statics
      | none => act.statics := by
  cases h with
  | putStatic hstack =>
    rw [Instruction.staticWrite?, hstack]
    rfl
  | _ => rfl

/-! ## Fields of the image -/

/-- All static fields that the image's code reads or writes have unambiguous references. -/
def Image.UnambiguousStatics (image : Image) : Prop :=
  ∀ method code, answer (Image.code method image) = .ok code →
    ∀ i ∈ code, ∀ field ∈ i.static?, field.Unambiguous

/-- A registry's image has unambiguous statics if the registered bodies have. -/
theorem Image.unambiguousStatics_registry {registry : Registry}
    (h : ∀ code ∈ registry.bodies, ∀ i ∈ code, ∀ field ∈ i.static?, field.Unambiguous) :
    UnambiguousStatics (.registry registry) := by
  intro method code hcode
  rw [Image.code, answer_ofRegistry] at hcode
  exact h code (Registry.mem_bodies hcode)

/-- Static fields of fetched instructions have unambiguous references if those of the image's code have. -/
theorem Store.Sourced.unambiguous {image : Image} {store store' : Store} (h : Sourced image store)
    (himage : image.UnambiguousStatics) {pc : ProgramCounter} {i : Instruction}
    (hfetch : Store.fetch pc store = .ok i store') {field : FieldRef} (hfield : i.static? = some field) :
    field.Unambiguous := by
  obtain ⟨method, code, hcode, hi⟩ := h.mem_of_fetch hfetch
  exact himage method code hcode i hi field hfield

/-! ## What is kept -/

/-- What is kept for a static field is what was last written to it. -/
def State.HoldsWrites (writes : List (FieldRef × Value)) (state : State) : Prop :=
  ∀ field : FieldRef, field.Unambiguous → Table.get? field.text state.statics = Table.get? field writes

theorem State.HoldsWrites.write {writes : List (FieldRef × Value)} {state : State} (h : state.HoldsWrites writes)
    {field : FieldRef} (hfield : field.Unambiguous) (v : Value) :
    State.HoldsWrites ((field, v) :: writes) { state with statics := Table.insert field.text v state.statics } := by
  intro other hother
  by_cases hsame : field = other
  · subst hsame
    rw [Table.get?_insert_self, Table.get?, if_pos rfl]
  · have htext : other.text ≠ field.text := fun heq => hsame (FieldRef.text_injective hother hfield heq).symm
    rw [Table.get?_insert_of_ne htext, Table.get?, if_neg hsame]
    exact h other hother

section

variable {image : Image} {machine next : Machine} {frame : Frame} {callers : List Frame} {i : Instruction} {store : Store}
  {move : Move}

/-- A step changes what is kept as its instruction says. -/
theorem Machine.At.statics_eq (hat : machine.At frame callers i store) (hstep : step machine = .next move next) :
    next.state.statics = match i.staticWrite? frame.stack with
      | some (field, v) => Table.insert field.text v machine.state.statics
      | none => machine.state.statics := by
  obtain ⟨control, act, heffect, rfl⟩ := hat.effect hstep
  exact heffect.statics_eq

theorem Instruction.eq_put_of_staticWrite? {operands : OperandStack} {field : FieldRef} {v : Value}
    (h : i.staticWrite? operands = some (field, v)) : i = .put true field := by
  unfold staticWrite? at h
  split at h
  · obtain ⟨_, -, heq⟩ := Option.map_eq_some_iff.1 h
    cases heq
    rfl
  · cases h

theorem State.HoldsWrites.step {writes : List (FieldRef × Value)} (h : machine.state.HoldsWrites writes)
    (hsourced : machine.store.Sourced image) (himage : image.UnambiguousStatics)
    (hat : machine.At frame callers i store) (hstep : Bytecode.step machine = .next move next) :
    next.state.HoldsWrites ((i.staticWrite? frame.stack).toList ++ writes) := by
  have hstatics := hat.statics_eq hstep
  cases hwrite : i.staticWrite? frame.stack with
  | none =>
    rw [hwrite] at hstatics
    intro field hfield
    rw [hstatics]
    exact h field hfield
  | some write =>
    obtain ⟨field, v⟩ := write
    rw [hwrite] at hstatics
    have hfield : field.Unambiguous := by
      obtain rfl := Instruction.eq_put_of_staticWrite? hwrite
      exact hsourced.unambiguous himage hat.fetched rfl
    intro other hother
    rw [hstatics]
    exact h.write hfield v other hother

theorem Written.holdsWrites {first last : Machine} {writes : List (FieldRef × Value)} {k : Nat}
    (h : Written first k writes last) (hfirst : first.state.statics = []) (hsourced : first.store.Sourced image)
    (himage : image.UnambiguousStatics) : last.state.HoldsWrites writes := by
  induction h with
  | refl =>
    intro field hfield
    rw [hfirst]
    rfl
  | step hbefore hat hstep ih => exact ih.step (hsourced.reaches hbefore.reaches) himage hat hstep

/-! ## What is read -/

/-- What reading a static field gives: the value that is kept for it, else what the store says. -/
def Machine.staticAnswer (field : FieldRef) (machine : Machine) : Except Fault Value :=
  match Table.get? field.text machine.state.statics with
  | some v => .ok v
  | none => answer (Store.staticValue field machine.store)

theorem Store.Knows.staticValue {store : Store} (h : store.Knows image) (field : FieldRef) :
    answer (Store.staticValue field store) = answer (Store.staticValue field (.ofImage image)) := by
  rw [(staticValue_eq field store).1, (staticValue_eq field _).1, (h.classInfo _).1,
    ((faithful_ofImage image).knows.classInfo _).1]

/-- Reading a static field in one equation. -/
theorem Exec.execute_getStatic (field : FieldRef) (act : Activation) :
    execute (.get true field) act = match Table.get? field.text act.statics with
      | some v => .ok .next (act.withStack (v :: act.frame.stack))
      | none => match Store.staticValue field act.store with
        | .ok v store => .ok .next { act.withStack (v :: act.frame.stack) with store }
        | .error fault store => .error (.fault fault) { act with store } := by
  change ((do push (← staticOf field); return .next : Exec Control)) act = _
  have hstatic : staticOf field act = match Table.get? field.text act.statics with
      | some v => .ok v act
      | none => onStore (Store.staticValue field) act := by
    change (match Table.get? field.text act.statics with
      | some v => return v
      | none => onStore (Store.staticValue field) : Exec Value) act = _
    cases Table.get? field.text act.statics <;> rfl
  rw [bind_apply, hstatic]
  cases Table.get? field.text act.statics with
  | some v => rfl
  | none =>
    simp only [onStore]
    cases Store.staticValue field act.store <;> rfl

/-- A `get` of a static field pushes what reading it gives, or fails as reading it does. -/
theorem Machine.At.getStatic {field : FieldRef} (hat : machine.At frame callers (.get true field) store)
    (hknows : machine.store.Knows image) :
    (∀ v, machine.staticAnswer field = .ok v →
      ∃ next, step machine = .next .stay next ∧ next.operands = v :: frame.stack) ∧
    ∀ fault, machine.staticAnswer field = .error fault → ∃ left, step machine = .fault fault left := by
  have hfetched := hknows.fetch frame.pc
  rw [hat.fetched] at hfetched
  -- Fetching the instruction has not changed what the store says of the field.
  have hsame := (hfetched.staticValue field).trans (hknows.staticValue field).symm
  simp only [final] at hsame
  have hexecute := Exec.execute_getStatic field ⟨frame, machine.state.heap, machine.state.statics, store⟩
  unfold staticAnswer
  cases hget : Table.get? field.text machine.state.statics with
  | some w =>
    simp only [hget] at hexecute
    refine ⟨fun v hv => ?_, fun fault hfault => by cases hfault⟩
    cases hv
    exact ⟨_, hat.step_of_ok hexecute, rfl⟩
  | none =>
    simp only [hget] at hexecute
    rw [← hsame]
    cases hvalue : Store.staticValue field store with
    | ok w store' =>
      simp only [hvalue] at hexecute
      refine ⟨fun v hv => ?_, fun fault hfault => by cases hfault⟩
      cases hv
      exact ⟨_, hat.step_of_ok hexecute, rfl⟩
    | error f store' =>
      simp only [hvalue] at hexecute
      refine ⟨fun v hv => (by cases hv), fun fault hfault => ?_⟩
      cases hfault
      exact ⟨_, hat.step_of_error hexecute⟩

/-! ## What is declared -/

/-- What a class says that a static field starts with: the default of its declared type, or its constant
as a value of that type, which is primitive. -/
inductive ClassInfo.Starts (name : Text) (info : ClassInfo) : Value → Prop
  | default {declared} : info.fields.find? (fun f => f.isStatic && f.name = name) = some declared →
      declared.value = none ∨ declared.value = some .null → Starts name info (.default declared.type)
  | constant {declared p c} : info.fields.find? (fun f => f.isStatic && f.name = name) = some declared →
      declared.type = .primitive p → declared.value = some c → c ≠ .null → Starts name info (.ofConstant p c)

theorem Store.starts_of_initialStatic {field : FieldRef} {info : ClassInfo} {v : Value}
    (h : initialStatic field info = .ok v) : info.Starts field.name v := by
  unfold initialStatic at h
  split at h
  · cases h
  · rename_i declared hfind
    split at h
    · rename_i hvalue
      cases h
      exact .default hfind (.inl hvalue)
    · rename_i hvalue
      cases h
      exact .default hfind (.inr hvalue)
    · rename_i c p hne hvalue htype
      cases h
      exact .constant hfind htype hvalue fun hnull => hne hnull
    · cases h

/-- A declaration that says nothing of the field, or nothing that it can start with, is a fault of the image. -/
theorem Store.label_of_initialStatic {field : FieldRef} {info : ClassInfo} {fault : Fault}
    (h : initialStatic field info = .error fault) : fault.label = "SuiteError" := by
  unfold initialStatic at h
  split at h
  · cases h
    rfl
  · split at h
    · cases h
    · cases h
    · cases h
    · cases h
      rfl

/-- There is a class file for the class, and decoding it fails. -/
def Image.Undecodable (className : Text) (fault : Fault) (image : Image) : Prop :=
  ∃ directory document json, image = .directory directory ∧
    Table.get? (directory.classFilePath className) directory.files = some document ∧ document.value? = some json ∧
    ClassFile.ofJson className json = .error fault

/-- A class without a declaration is a fault of the image, unless there is a class file that cannot be decoded. -/
theorem Image.label_of_classInfo {className : Text} {fault : Fault} {image : Image}
    (h : answer (Image.classInfo className image) = .error fault) :
    fault.label = "SuiteError" ∨ image.Undecodable className fault := by
  cases image with
  | registry r =>
    rw [Image.classInfo, answer_ofRegistry] at h
    unfold Registry.classInfo Registry.find at h
    cases hget : Table.get? className r.classes with
    | some known => rw [hget] at h; cases h
    | none => rw [hget] at h; cases h; exact .inl rfl
  | directory d =>
    rw [Image.classInfo, (answer_ofDirectory _).1, (Directory.classInfo_eq className d).1, Directory.answer_load] at h
    split at h
    · cases h
    · unfold Directory.read at h
      simp only [] at h
      split at h
      · cases h
        exact .inl rfl
      · rename_i document hfile
        split at h
        · cases h
          exact .inl rfl
        · rename_i json hjson
          cases hread : ClassFile.ofJson className json with
          | ok file => rw [hread] at h; cases h
          | error f =>
            rw [hread] at h
            cases h
            exact .inr ⟨d, document, json, rfl, hfile, hjson, hread⟩

theorem Store.answer_staticValue_ofImage (field : FieldRef) (image : Image) :
    answer (Store.staticValue field (.ofImage image)) =
      (answer (Image.classInfo field.className image)).bind (initialStatic field) := by
  rw [(staticValue_eq field _).1, ((faithful_ofImage image).knows.classInfo _).1]

/-! ## Reads -/

/-- What the next instruction reads from a static field is what was last written to it, else what is declared. -/
structure Machine.ReadsStatics (image : Image) (writes : List (FieldRef × Value)) (machine : Machine) : Prop where
  /-- A field that was written gives the value of the last write. -/
  written {frame callers field store v} : machine.At frame callers (.get true field) store →
    Table.get? field writes = some v → ∃ next, step machine = .next .stay next ∧ next.operands = v :: frame.stack
  /-- Any other field gives what a fresh store says, which is what its class declares. -/
  declared {frame callers field store v} : machine.At frame callers (.get true field) store →
    Table.get? field writes = none → answer (Store.staticValue field (.ofImage image)) = .ok v →
    (∃ next, step machine = .next .stay next ∧ next.operands = v :: frame.stack) ∧
      ∃ info, answer (Image.classInfo field.className image) = .ok info ∧ info.Starts field.name v
  /-- Where the store fails, so does the read, with a fault of the image or that of decoding the class file. -/
  undeclared {frame callers field store fault} : machine.At frame callers (.get true field) store →
    Table.get? field writes = none → answer (Store.staticValue field (.ofImage image)) = .error fault →
    (∃ left, step machine = .fault fault left) ∧
      (fault.label = "SuiteError" ∨ image.Undecodable field.className fault)
  /-- A step changes what reading a field gives only by writing to that field. -/
  kept {frame callers i field store move next} : field.Unambiguous → machine.At frame callers i store →
    step machine = .next move next → i ≠ .put true field → next.staticAnswer field = machine.staticAnswer field

/-- What reading a static field gives, told by the writes. -/
theorem State.HoldsWrites.staticAnswer {writes : List (FieldRef × Value)} (h : machine.state.HoldsWrites writes)
    (hknows : machine.store.Knows image) {field : FieldRef} (hfield : field.Unambiguous) :
    machine.staticAnswer field = match Table.get? field writes with
      | some v => .ok v
      | none => answer (Store.staticValue field (.ofImage image)) := by
  rw [Machine.staticAnswer, h field hfield, hknows.staticValue]

theorem State.HoldsWrites.readsStatics {writes : List (FieldRef × Value)} (h : machine.state.HoldsWrites writes)
    (hsourced : machine.store.Sourced image) (himage : image.UnambiguousStatics) :
    machine.ReadsStatics image writes where
  written {frame callers field store v} hat hget := by
    have hanswer := h.staticAnswer hsourced.knows (hsourced.unambiguous himage hat.fetched rfl)
    rw [hget] at hanswer
    exact (hat.getStatic hsourced.knows).1 v hanswer
  declared {frame callers field store v} hat hget hvalue := by
    have hanswer := h.staticAnswer hsourced.knows (hsourced.unambiguous himage hat.fetched rfl)
    rw [hget] at hanswer
    refine ⟨(hat.getStatic hsourced.knows).1 v (hanswer.trans hvalue), ?_⟩
    rw [Store.answer_staticValue_ofImage] at hvalue
    cases hinfo : answer (Image.classInfo field.className image) with
    | error fault => rw [hinfo] at hvalue; cases hvalue
    | ok info =>
      rw [hinfo] at hvalue
      exact ⟨info, rfl, Store.starts_of_initialStatic hvalue⟩
  undeclared {frame callers field store fault} hat hget hfault := by
    have hanswer := h.staticAnswer hsourced.knows (hsourced.unambiguous himage hat.fetched rfl)
    rw [hget] at hanswer
    refine ⟨(hat.getStatic hsourced.knows).2 fault (hanswer.trans hfault), ?_⟩
    rw [Store.answer_staticValue_ofImage] at hfault
    cases hinfo : answer (Image.classInfo field.className image) with
    | error fault' =>
      rw [hinfo] at hfault
      cases hfault
      exact Image.label_of_classInfo hinfo
    | ok info =>
      rw [hinfo] at hfault
      exact .inl (Store.label_of_initialStatic hfault)
  kept {frame callers i field store move next} hfield hat hstep hother := by
    have hnext := h.step hsourced himage hat hstep
    have hknows := hsourced.knows.reaches (Reaches.refl.step hstep)
    rw [hnext.staticAnswer hknows hfield, h.staticAnswer hsourced.knows hfield]
    -- The list of writes has grown at most by one to another field.
    have hget : Table.get? field ((i.staticWrite? frame.stack).toList ++ writes) = Table.get? field writes := by
      cases hwrite : i.staticWrite? frame.stack with
      | none => rfl
      | some write =>
        obtain ⟨field', v⟩ := write
        have hne : field' ≠ field := by
          rintro rfl
          exact hother (Instruction.eq_put_of_staticWrite? hwrite)
        exact if_neg hne
    rw [hget]

end

/-- Every machine that a run without written static fields reaches has a list of the writes
on the way, in whatever frames. What the next instruction reads from a static field is the
last write to it in the list, else what its class declares, and only a write to the field
itself changes that. -/
theorem statics_read_last_write {image : Image} (himage : image.UnambiguousStatics) {state : State}
    (hstate : state.statics = []) {k : Nat} {machine : Machine}
    (hreaches : Reaches ⟨state, .ofImage image⟩ k machine) :
    ∃ writes, Written ⟨state, .ofImage image⟩ k writes machine ∧ machine.ReadsStatics image writes := by
  obtain ⟨writes, hwrites⟩ := hreaches.written
  have hsourced := Store.sourced_ofImage image
  have hagrees := hwrites.holdsWrites hstate hsourced himage
  exact ⟨writes, hwrites, hagrees.readsStatics (hsourced.reaches hreaches) himage⟩

namespace Sample

/-- A static field of integers. -/
def total : FieldRef := ⟨"Sample", "total", .primitive .int⟩

def bump : MethodId := ⟨"Sample", "bump", [], none⟩

/-- Sets the field to 5. -/
def bumpCode : Code := #[.push (.int 5), .put true total, .return none]

def count : MethodId := ⟨"Sample", "count", [], some (.primitive .int)⟩

/-- Reads the field after a call. -/
def countCode : Code := #[.invoke .static bump, .get true total, .return (some .int)]

/-- The class declares that the field starts with 7. -/
def totalImage : Image :=
  .registry (((Registry.empty.addClass "Sample" [⟨"total", .primitive .int, true, some (.number (.int 7))⟩]).addMethod
    bump bumpCode).addMethod count countCode)

theorem unambiguous_total : total.Unambiguous where
  className := by simp only [total]; decide
  name := by simp only [total]; decide
  type := trivial

theorem unambiguousStatics_totalImage : totalImage.UnambiguousStatics := by
  refine Image.unambiguousStatics_registry fun code hcode i hi field hfield => ?_
  have hcodes : code ∈ [bumpCode, countCode] := hcode
  -- Whatever field the instructions name, it is this one.
  have htotal : field = total := by
    simp only [List.mem_cons, List.not_mem_nil, or_false] at hcodes
    rcases hcodes with rfl | rfl
    · simp only [bumpCode, List.mem_toArray, List.mem_cons, List.not_mem_nil, or_false] at hi
      rcases hi with rfl | rfl | rfl <;> cases hfield
      rfl
    · simp only [countCode, List.mem_toArray, List.mem_cons, List.not_mem_nil, or_false] at hi
      rcases hi with rfl | rfl | rfl <;> cases hfield
      rfl
  exact htotal ▸ unambiguous_total

/-- In the called method, before it has written the field. -/
def bumping (offset : Int) (stack : OperandStack) (methods : Table Text Code) : Machine :=
  ⟨⟨.empty, [⟨⟨bump, .int offset⟩, [], stack⟩, ⟨⟨count, .int 0⟩, [], []⟩], []⟩, ⟨totalImage, methods, []⟩⟩

/-- What the store keeps once both methods have begun. -/
def bothKept : Table Text Code := [(count.text, countCode), (bump.text, bumpCode)]

/-- After the write, in some frames. -/
def bumped (frames : List Frame) : Machine :=
  ⟨⟨.empty, frames, [(total.text, .int 5)]⟩, ⟨totalImage, bothKept, []⟩⟩

/-- In the first method, after the call. -/
def counting (offset : Int) (stack : OperandStack) : Machine := bumped [⟨⟨count, .int offset⟩, [], stack⟩]

end Sample

open Sample in
/-- What a called method writes to a static field, its caller reads instead of the declared value. -/
theorem caller_reads_static : ∃ writes,
    Reaches ⟨State.initial count [], .ofImage totalImage⟩ 4 (counting 1 []) ∧
    (counting 1 []).ReadsStatics totalImage writes ∧ Table.get? total writes = some (.int 5) := by
  let first : Machine := ⟨State.initial count [], .ofImage totalImage⟩
  have hcall : step first = .next .enter (bumping 0 [] [(count.text, countCode)]) := rfl
  have hvalue : step (bumping 0 [] [(count.text, countCode)]) = .next .stay (bumping 1 [.int 5] bothKept) := rfl
  have hput : step (bumping 1 [.int 5] bothKept) =
      .next .stay (bumped [⟨⟨bump, .int 2⟩, [], []⟩, ⟨⟨count, .int 0⟩, [], []⟩]) := rfl
  have hleave : step (bumped [⟨⟨bump, .int 2⟩, [], []⟩, ⟨⟨count, .int 0⟩, [], []⟩]) =
      .next .leave (counting 1 []) := rfl
  have hread : step (counting 1 []) = .next .stay (counting 2 [.int 5]) := rfl
  have hreaches := (((Reaches.refl.step hcall).step hvalue).step hput).step hleave
  have hat : (counting 1 []).At ⟨⟨count, .int 1⟩, [], []⟩ [] (.get true total) (counting 1 []).store := ⟨rfl, rfl⟩
  obtain ⟨writes, -, hreads⟩ := statics_read_last_write unambiguousStatics_totalImage rfl hreaches
  refine ⟨writes, hreaches, hreads, ?_⟩
  cases hget : Table.get? total writes with
  | some v =>
    obtain ⟨next, hnext, hpushed⟩ := hreads.written hat hget
    rw [hread] at hnext
    cases hnext
    cases hpushed
    rfl
  | none =>
    -- Then the declared 7 would have been pushed.
    obtain ⟨⟨next, hnext, hpushed⟩, -⟩ := hreads.declared hat hget (v := .int 7) rfl
    rw [hread] at hnext
    cases hnext
    cases hpushed

namespace Sample

/-- A static field of a class of which no field can be decoded. -/
def real : FieldRef := ⟨"Reals", "x", .primitive .int⟩

def look : MethodId := ⟨"Sample", "look", [], some (.primitive .int)⟩

/-- A class file with a static field that is no integer. -/
def realsFile : Json := .object [("name", .string "Reals"),
  ("fields", .array [.object [("name", .string "x"), ("static", .bool true), ("type", .object [("base", .string "float")])]])]

def lookRecord : Json := .object [("name", .string "look"), ("params", .array []), ("returns", .string "int"),
  ("code", .array [record "get" [("static", .bool true),
      ("field", .object [("class", .string "Reals"), ("name", .string "x"), ("type", .string "int")])],
    typed "return" "int" []])]

/-- A class file with a method that reads the field. -/
def lookFile : Json := .object [("name", .string "Sample"), ("methods", .array [lookRecord])]

def realsImage : Image :=
  .directory (.ofFiles "r" [("r/Reals.json", .json realsFile), ("r/Sample.json", .json lookFile)])

theorem realsFile_undecodable (className : Text) :
    ClassFile.ofJson className realsFile = .error (.unsupported (.operandType (some (.string "float")))) := rfl

theorem lookFile_ok (className : Text) :
    ClassFile.ofJson className lookFile = .ok ⟨⟨"Sample", []⟩, [lookRecord]⟩ := rfl

theorem unambiguousStatics_realsImage : realsImage.UnambiguousStatics := by
  intro method code hcode i hi field hfield
  obtain ⟨entry, hentry, json, file, record, hjson, hfile, hrecord, hbody⟩ := Image.code_ofFiles hcode
  simp only [List.mem_cons, List.not_mem_nil, or_false] at hentry
  rcases hentry with rfl | rfl
  · cases hjson
    rw [realsFile_undecodable] at hfile
    cases hfile
  · cases hjson
    rw [lookFile_ok] at hfile
    cases hfile
    obtain rfl := List.mem_singleton.1 hrecord
    have hlook : (ClassFile.body lookRecord).bind Code.ofJson = .ok #[.get true real, .return (some .int)] := rfl
    rw [hlook] at hbody
    cases hbody
    simp only [List.mem_toArray, List.mem_cons, List.not_mem_nil, or_false] at hi
    rcases hi with rfl | rfl <;> cases hfield
    exact ⟨by simp only [real]; decide, by simp only [real]; decide, trivial⟩

end Sample

open Sample in
/-- A field of a class that cannot be decoded is read: the fault is no fault of the image. -/
theorem undecodable_class_is_read : realsImage.UnambiguousStatics ∧ (State.initial look []).statics = [] ∧
    (∃ frame store, Machine.At ⟨State.initial look [], .ofImage realsImage⟩ frame [] (.get true real) store) ∧
    ∃ fault left, step ⟨State.initial look [], .ofImage realsImage⟩ = .fault fault left ∧
      fault.label = "UnsupportedInstructionError" := by
  refine ⟨unambiguousStatics_realsImage, rfl, ⟨_, _, rfl, rfl⟩, ?_⟩
  exact ⟨_, _, rfl, rfl⟩

end Bytecode
