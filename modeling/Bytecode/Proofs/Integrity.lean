import Bytecode.Proofs.Decoding
import Bytecode.Proofs.Lockstep
/-!
# Values stay within the heap

An instruction of decoded code keeps all values in the five places scalars of
their types, null, or keys of the heap (`Effect.within`): the one value that is
not computed from others is what `push` pushes, and the decoder makes nothing but
scalars and null. Where every reference on the stack has an entry behind it, no
instruction stops with the fault of a broken machine (`Exec.execute_intact`).
-/
namespace Bytecode

/-- All values are within the state's own heap. -/
abbrev State.Within (state : State) : Prop := state.All (Value.Within state.heap.size)

structure Activation.All (P : Value → Prop) (act : Activation) : Prop where
  frame : act.frame.All P
  heap : act.heap.All P
  statics : Table.All P act.statics

abbrev Activation.Within (act : Activation) : Prop := act.All (Value.Within act.heap.size)

namespace Activation

variable {P Q : Value → Prop} {act : Activation}

theorem All.mono (h : act.All P) (hpq : ∀ v, P v → Q v) : act.All Q where
  frame := h.frame.mono hpq
  heap entry hentry := (h.heap entry hentry).mono hpq
  statics entry hentry := hpq _ (h.statics entry hentry)

theorem All.withStack (h : act.All P) {stack : OperandStack} (hstack : ∀ v ∈ stack, P v) :
    (act.withStack stack).All P :=
  ⟨⟨h.frame.locals, hstack⟩, h.heap, h.statics⟩

theorem All.withLocal (h : act.All P) (slot : Int) {v : Value} (hv : P v) : (act.withLocal slot v).All P :=
  ⟨⟨h.frame.locals.insert _ hv, h.frame.stack⟩, h.heap, h.statics⟩

/-- The operands below the topmost ones. -/
theorem All.rest (h : act.All P) {v : Value} {rest : OperandStack} (hstack : act.frame.stack = v :: rest) :
    P v ∧ ∀ w ∈ rest, P w :=
  List.forall_mem_cons.1 (hstack ▸ h.frame.stack)

/-- A new entry of the heap, with the reference to it as the topmost operand. -/
theorem Within.allocate (h : act.Within) {rest : OperandStack} (hrest : ∀ v ∈ rest, v.Within act.heap.size) {v : Value}
    (hv : v.MadeOf (Value.Within act.heap.size)) (store : Store) :
    Activation.Within { act.withStack (.reference (some (.int act.heap.size)) :: rest) with
      heap := act.heap.allocate v, store } := by
  have hgrows : act.heap.size ≤ (act.heap.allocate v).size := by simp
  have hkey : Value.Within (act.heap.allocate v).size (.reference (some (.int act.heap.size))) := .reference (by simp)
  have hmono : ∀ w : Value, w.Within act.heap.size → w.Within (act.heap.allocate v).size := by
    intro w hw
    exact hw.mono hgrows
  have hold := All.mono h hmono
  refine ⟨⟨hold.frame.locals, ?_⟩, hold.heap.allocate (hv.mono hmono), hold.statics⟩
  exact List.forall_mem_cons.2 ⟨hkey, fun w hw => hmono w (hrest w hw)⟩

/-- Another value behind a key. -/
theorem Within.set (h : act.Within) {rest : OperandStack} (hrest : ∀ v ∈ rest, v.Within act.heap.size) (ref : Number)
    {v : Value} (hv : v.MadeOf (Value.Within act.heap.size)) :
    Activation.Within { act.withStack rest with heap := act.heap.set ref v } := by
  unfold Within
  simp only [Heap.size_set]
  exact ⟨⟨h.frame.locals, hrest⟩, h.heap.set ref hv, h.statics⟩

end Activation

/-- The property holds of what control carries: the locals of a called method, or a result. -/
def Control.All (P : Value → Prop) : Control → Prop
  | .call callee => callee.All P
  | .leave returned => ∀ v ∈ returned, P v
  | _ => True

theorem Control.all_branchTo (P : Value → Prop) (taken : Bool) (target : Int) : (branchTo taken target).All P := by
  cases taken <;> trivial

theorem Value.within_freshFields (size : Nat) (info : ClassInfo) :
    Table.All (Value.Within size) (Exec.freshFields info) := by
  refine Table.all_ofEntries fun entry hentry => ?_
  obtain ⟨field, -, rfl⟩ := List.mem_map.1 hentry
  exact Value.within_default size field.type

theorem Coerces.within {size : Nat} {element : Ty} {v w : Value} (h : Coerces element v w) (hv : v.Within size) :
    w.Within size := by
  cases h with
  | scalar => exact .scalar _ _
  | reference => exact hv

/-- The heap never shrinks. -/
theorem Effect.heap_size_le {act act' : Activation} {i : Instruction} {control : Control}
    (h : Effect act i control act') : act.heap.size ≤ act'.heap.size := by
  cases h with
  | new => simp
  | newArray => simp
  | putField => simp
  | arrayStore => simp
  | _ => exact Nat.le_refl _

/-- An instruction that pushes no reference out of nothing makes none. -/
theorem Effect.within {act act' : Activation} {i : Instruction} {control : Control} (h : Effect act i control act')
    (hi : i.Plain) (hact : act.Within) : act'.Within ∧ control.All (Value.Within act'.heap.size) := by
  have hpush : ∀ {rest : OperandStack} {v : Value}, (∀ w ∈ rest, w.Within act.heap.size) → v.Within act.heap.size →
      (act.withStack (v :: rest)).Within := by
    intro rest v hrest hv
    exact hact.withStack (List.forall_mem_cons.2 ⟨hv, hrest⟩)
  have hall := hact.frame.stack
  cases h with
  | push v => exact ⟨hpush hall (hi.mono (Nat.zero_le _)), trivial⟩
  | load hload hfits => exact ⟨hpush hall (hact.frame.locals.get? hload), trivial⟩
  | store hstack hfits =>
    obtain ⟨hv, hrest⟩ := hact.rest hstack
    exact ⟨(hact.withStack hrest).withLocal _ hv, trivial⟩
  | binary hstack ha hb hn =>
    obtain ⟨hright, hleft⟩ := hact.rest hstack
    exact ⟨hpush (List.forall_mem_cons.1 hleft).2 (.scalar _ _), trivial⟩
  | negate hstack hn => exact ⟨hpush (hact.rest hstack).2 (.scalar _ _), trivial⟩
  | incr hload hn => exact ⟨hact.withLocal _ (.scalar _ _), trivial⟩
  | dup hstack =>
    obtain ⟨hv, hrest⟩ := hact.rest hstack
    exact ⟨hpush (List.forall_mem_cons.2 ⟨hv, hrest⟩) hv, trivial⟩
  | pop hstack => exact ⟨hact.withStack (hact.rest hstack).2, trivial⟩
  | branch hstack ha hb hcompare hcontrol =>
    obtain ⟨hright, hleft⟩ := hact.rest hstack
    exact ⟨hact.withStack (List.forall_mem_cons.1 hleft).2, hcontrol ▸ Control.all_branchTo _ _ _⟩
  | branchZero hstack ha hcompare hcontrol =>
    exact ⟨hact.withStack (hact.rest hstack).2, hcontrol ▸ Control.all_branchTo _ _ _⟩
  | goto target => exact ⟨hact, trivial⟩
  | getWritten hget => exact ⟨hpush hall (hact.statics.get? hget), trivial⟩
  -- The value of a declaration comes from a class file, which cannot name a key.
  | @getInitial field v store hget hvalue =>
    have hdecodes := Store.decodes_staticValue field act.store
    rw [hvalue] at hdecodes
    have hv : v.Within act.heap.size := Value.Within.mono (Nat.zero_le _) hdecodes
    have hpushed := hpush hall hv
    exact ⟨⟨hpushed.frame, hpushed.heap, hpushed.statics⟩, trivial⟩
  | getField hstack hentry hget =>
    obtain ⟨href, hrest⟩ := hact.rest hstack
    exact ⟨hpush hrest ((hact.heap.fields hentry).get? hget), trivial⟩
  | putStatic hstack =>
    obtain ⟨hv, hrest⟩ := hact.rest hstack
    have hpopped := hact.withStack hrest
    exact ⟨⟨hpopped.frame, hpopped.heap, hact.statics.insert _ hv⟩, trivial⟩
  | @putField field v ref className fields rest hstack hentry =>
    obtain ⟨hv, hrest⟩ := hact.rest hstack
    have hfields := (hact.heap.fields hentry).insert field.name hv
    exact ⟨hact.set (List.forall_mem_cons.1 hrest).2 _ (.object _ hfields), trivial⟩
  | new hne hinfo => exact ⟨hact.allocate hall (.object _ (Value.within_freshFields _ _)) _, trivial⟩
  | @newArray element v n rest hstack hn hpos =>
    have hitems : ∀ w ∈ List.replicate n.toNat (Value.default element), w.Within act.heap.size := by
      intro w hw
      rw [List.eq_of_mem_replicate hw]
      exact Value.within_default _ element
    exact ⟨hact.allocate (hact.rest hstack).2 (.array element hitems) act.store, trivial⟩
  | arrayLoad hstack hn hentry hpos hitem =>
    obtain ⟨hindex, hrest⟩ := hact.rest hstack
    have hv := hact.heap.items hentry _ (List.mem_of_getElem? hitem)
    exact ⟨hpush (List.forall_mem_cons.1 hrest).2 hv, trivial⟩
  | arrayStore hstack hn hentry hpos hlt hcoerces =>
    obtain ⟨hv, hrest⟩ := hact.rest hstack
    obtain ⟨hindex, hrest⟩ := List.forall_mem_cons.1 hrest
    -- An item of the new array is an old one or the one just stored.
    refine ⟨hact.set (List.forall_mem_cons.1 hrest).2 _ (.array _ fun x hx => ?_), trivial⟩
    rcases List.mem_or_eq_of_mem_set hx with hold | rfl
    · exact hact.heap.items hentry x hold
    · exact hcoerces.within hv
  | arrayLength hstack hentry => exact ⟨hpush (hact.rest hstack).2 (.scalar _ _), trivial⟩
  | skipConstructor hroot hstack => exact ⟨hact.withStack (hact.rest hstack).2, trivial⟩
  | @call access method args rest hcalls hstack hcount hreceiver =>
    -- The arguments leave the stack for the local slots of the called method.
    rw [hstack] at hall
    obtain ⟨hargs, hrest⟩ := List.forall_mem_append.1 hall
    exact ⟨hact.withStack hrest, Frame.all_start method fun v hv => hargs v (List.mem_reverse.2 hv)⟩
  | leaveNothing =>
    refine ⟨hact, ?_⟩
    intro v hv
    cases hv
  | leave hstack hfits =>
    obtain ⟨hv, hrest⟩ := hact.rest hstack
    refine ⟨hact.withStack hrest, ?_⟩
    intro w hw
    cases hw
    exact hv
  | cast hstack hn hboolean => exact ⟨hpush (hact.rest hstack).2 (.scalar _ _), trivial⟩

/-! ## Faults of a broken machine -/

/-- There is nothing behind a reference, or no frame to go on in. -/
def Fault.Broken : Fault → Prop
  | .malformed (.danglingReference _) | .malformed .callStackEmpty | .malformed .returnWithoutCall => True
  | _ => False

theorem Fault.OfImage.not_broken {fault : Fault} (h : fault.OfImage) : ¬fault.Broken := by
  intro hbroken
  cases fault with
  | malformed cause => cases cause <;> trivial
  | _ => exact hbroken

namespace Exec

/-- The action does not stop with the fault of a broken machine. -/
def Intact {α : Type} (x : Exec α) (act : Activation) : Prop :=
  ∀ fault act', x act = .error (.fault fault) act' → ¬fault.Broken

variable {α β : Type} {act : Activation}

theorem Intact.bind {x : Exec α} {f : α → Exec β} (hx : Intact x act)
    (hf : ∀ a act', x act = .ok a act' → Intact (f a) act') : Intact (x >>= f) act := by
  intro fault act' h
  rw [bind_apply] at h
  cases hact : x act with
  | ok a act'' =>
    rw [hact] at h
    exact hf a act'' hact fault act' h
  | error stop act'' =>
    rw [hact] at h
    cases h
    exact hx fault act' hact

theorem intact_of_ok {x : Exec α} {a : α} {act' : Activation} (h : x act = .ok a act') : Intact x act := by
  intro fault act'' hfault
  rw [h] at hfault
  cases hfault

theorem intact_pure (a : α) : Intact (pure a) act := intact_of_ok rfl

theorem intact_modify (f : Activation → Activation) : Intact (modify f) act := intact_of_ok rfl

theorem intact_get : Intact get act := intact_of_ok rfl

theorem intact_site : Intact site act := intact_of_ok rfl

theorem intact_halt (outcome : Outcome) : Intact (halt outcome : Exec α) act := by
  intro fault act' h
  cases h

theorem intact_raise {fault : Fault} (h : ¬fault.Broken) : Intact (raise fault : Exec α) act := by
  intro fault' act' hraise
  cases hraise
  exact h

theorem intact_orRaise {x : Except Fault α} (h : ∀ fault, x = .error fault → ¬fault.Broken) :
    Intact (orRaise x) act := by
  cases x with
  | ok a => exact intact_pure a
  | error fault => exact intact_raise (h fault rfl)

theorem intact_orHalt (outcome : Outcome) (x : Option α) : Intact (orHalt outcome x) act := by
  cases x with
  | some a => exact intact_pure a
  | none => exact intact_halt outcome

theorem intact_onStore {action : EStateM Fault Store α} (h : Reads (answer (action act.store))) :
    Intact (onStore action) act := by
  intro fault act' hstop
  unfold onStore at hstop
  cases haction : action act.store with
  | ok a store => rw [haction] at hstop; cases hstop
  | error f store =>
    rw [haction] at hstop h
    cases hstop
    exact h.not_broken

theorem intact_pop : Intact pop act := by
  intro fault act' h
  rw [pop_apply] at h
  cases hstack : act.frame.stack with
  | nil =>
    rw [hstack] at h
    cases h
    exact id
  | cons v rest => rw [hstack] at h; cases h

theorem intact_mistyped (expected got : Text) :
    Intact (do raise (.mistyped expected got (← site)) : Exec α) act :=
  intact_site.bind fun _ _ _ => intact_raise id

theorem intact_expectInt (v : Value) : Intact (expectInt v) act := by
  unfold expectInt
  split
  · exact intact_pure _
  · exact intact_mistyped _ _

theorem intact_expectReference (v : Value) : Intact (expectReference v) act := by
  unfold expectReference
  split
  · exact intact_pure _
  · exact intact_mistyped _ _

theorem intact_expectCategory (category : Category) (v : Value) : Intact (expectCategory category v) act := by
  unfold expectCategory
  split
  · exact intact_pure _
  · exact intact_mistyped _ _

theorem intact_popInt : Intact popInt act := intact_pop.bind fun v _ _ => intact_expectInt v

theorem intact_popReference : Intact popReference act := intact_pop.bind fun v _ _ => intact_expectReference v

theorem intact_popKey : Intact popKey act := intact_popReference.bind fun ref _ _ => intact_orHalt _ ref

theorem intact_popArguments (count : Nat) (args : List Value) : Intact (popArguments count args) act := by
  induction count generalizing act args with
  | zero => exact intact_pure args
  | succ count ih => exact intact_pop.bind fun v _ _ => ih (v :: args)

theorem intact_comparand (condition : Condition) (v : Value) : Intact (comparand condition v) act := by
  unfold comparand
  split
  · split
    · exact intact_mistyped _ _
    · exact intact_pure _
  · exact (intact_expectInt v).bind fun n _ _ => intact_pure _

theorem intact_decideJump (condition : Condition) (left right : Option Number) (target : Int) :
    Intact (decideJump condition left right target) act := by
  refine intact_site.bind fun site _ _ => (intact_orRaise ?_).bind fun taken _ _ => ?_
  · intro fault h
    unfold Condition.compare at h
    split at h <;> cases h
    exact id
  · split <;> exact intact_pure _

theorem intact_placeIn (items : List Value) (index : Int) : Intact (placeIn items index) act := by
  unfold placeIn
  split
  · exact intact_pure _
  · exact intact_halt _

theorem intact_coerce (element : Ty) (v : Value) : Intact (coerce element v) act := by
  unfold coerce
  split
  · exact (intact_expectInt v).bind fun n _ _ => intact_pure _
  · exact intact_pure _
  · exact intact_mistyped _ _

theorem intact_arrayOf {ref : Number} (h : (act.heap.get? ref).isSome) : Intact (arrayOf ref) act := by
  refine intact_get.bind fun _ _ hget => intact_site.bind fun site _ _ => intact_orRaise fun fault hfault => ?_
  obtain ⟨rfl, rfl⟩ := get_eq_ok.1 hget
  obtain ⟨entry, hentry⟩ := Option.isSome_iff_exists.1 h
  -- There is an entry, so it can only be of the wrong kind.
  unfold Heap.getArray Heap.get at hfault
  rw [hentry] at hfault
  cases entry <;> cases hfault <;> exact id

theorem intact_objectOf {ref : Number} (h : (act.heap.get? ref).isSome) : Intact (objectOf ref) act := by
  refine intact_get.bind fun _ _ hget => intact_site.bind fun site _ _ => intact_orRaise fun fault hfault => ?_
  obtain ⟨rfl, rfl⟩ := get_eq_ok.1 hget
  obtain ⟨entry, hentry⟩ := Option.isSome_iff_exists.1 h
  unfold Heap.getObject Heap.get at hfault
  rw [hentry] at hfault
  cases entry <;> cases hfault <;> exact id

theorem intact_push (v : Value) (control : Control) : Intact (do push v; return control) act :=
  (intact_modify _).bind fun _ _ _ => intact_pure control

/-! ### Instructions -/

section Instructions

/-- All references on the operand stack have an entry behind them. -/
def Backed (act : Activation) : Prop :=
  ∀ key, Value.reference (some key) ∈ act.frame.stack → (act.heap.get? key).isSome

theorem Backed.head {rest : OperandStack} {key : Number} (h : Backed act)
    (hstack : act.frame.stack = .reference (some key) :: rest) : ((act.withStack rest).heap.get? key).isSome :=
  h key (hstack ▸ List.mem_cons_self)

theorem Backed.tail {rest : OperandStack} {v : Value} (h : Backed act) (hstack : act.frame.stack = v :: rest) :
    Backed (act.withStack rest) :=
  fun key hkey => h key (hstack ▸ List.mem_cons_of_mem v hkey)

theorem intact_allocate (v : Value) (control : Control) : Intact (do allocate v; return control) act := by
  refine Intact.bind ?_ fun _ _ _ => intact_pure control
  exact intact_get.bind fun _ _ _ => (intact_modify _).bind fun _ _ _ => intact_modify _

theorem intact_newArray (element : Ty) : Intact (newArray element) act := by
  refine intact_popInt.bind fun length _ _ => ?_
  split
  · exact intact_halt _
  · exact intact_allocate _ _

theorem intact_arrayLoad (h : Backed act) : Intact arrayLoad act := by
  refine intact_popInt.bind fun index _ hindex => intact_popKey.bind fun ref _ href => ?_
  obtain ⟨v, rest, hstack, -, rfl⟩ := popInt_eq_ok.1 hindex
  obtain ⟨rest', hstack', rfl⟩ := popKey_eq_ok.1 href
  have hentry := (h.tail hstack).head hstack'
  refine (intact_arrayOf hentry).bind fun array _ _ => (intact_placeIn _ index).bind fun place _ _ => ?_
  exact (intact_orHalt _ _).bind fun item _ _ => intact_push item _

theorem intact_arrayStore (h : Backed act) : Intact arrayStore act := by
  refine intact_pop.bind fun v _ hv => intact_popInt.bind fun index _ hindex =>
    intact_popKey.bind fun ref _ href => ?_
  obtain ⟨rest, hstack, rfl⟩ := pop_eq_ok.1 hv
  obtain ⟨w, rest', hstack', -, rfl⟩ := popInt_eq_ok.1 hindex
  obtain ⟨rest'', hstack'', rfl⟩ := popKey_eq_ok.1 href
  -- The pops leave the heap alone, so the entry is still behind the reference.
  have hentry := ((h.tail hstack).tail hstack').head hstack''
  refine (intact_arrayOf hentry).bind fun array _ _ => (intact_placeIn _ index).bind fun place _ _ => ?_
  exact (intact_coerce _ v).bind fun w _ _ => (intact_modify _).bind fun _ _ _ => intact_pure _

theorem intact_arrayLength (h : Backed act) : Intact arrayLength act := by
  refine intact_popKey.bind fun ref _ href => ?_
  obtain ⟨rest, hstack, rfl⟩ := popKey_eq_ok.1 href
  exact (intact_arrayOf (h.head hstack)).bind fun array _ _ => intact_push _ _

theorem intact_newObject (className : Text) : Intact (newObject className) act := by
  unfold newObject
  split
  · exact intact_halt _
  · exact (intact_onStore (Store.reads_classInfo className _)).bind fun info _ _ => intact_allocate _ _

theorem intact_getStatic (field : FieldRef) : Intact (getStatic field) act := by
  refine Intact.bind ?_ fun v _ _ => intact_push v _
  refine intact_get.bind fun _ _ _ => ?_
  split
  · exact intact_pure _
  · exact intact_onStore ((Store.decodes_staticValue field _).mono fun _ _ => trivial)

theorem intact_getField (h : Backed act) (field : FieldRef) : Intact (getField field) act := by
  refine intact_popKey.bind fun ref _ href => ?_
  obtain ⟨rest, hstack, rfl⟩ := popKey_eq_ok.1 href
  refine (intact_objectOf (h.head hstack)).bind fun object _ _ => (intact_orRaise ?_).bind fun v _ _ =>
    intact_push v _
  intro fault hfault
  unfold fieldOf at hfault
  split at hfault <;> cases hfault
  exact id

theorem intact_putField (h : Backed act) (field : FieldRef) : Intact (putField field) act := by
  refine intact_pop.bind fun v _ hv => intact_popKey.bind fun ref _ href => ?_
  obtain ⟨rest, hstack, rfl⟩ := pop_eq_ok.1 hv
  obtain ⟨rest', hstack', rfl⟩ := popKey_eq_ok.1 href
  have hentry := (h.tail hstack).head hstack'
  exact (intact_objectOf hentry).bind fun object _ _ => (intact_modify _).bind fun _ _ _ => intact_pure _

theorem intact_invoke (access : Access) (method : MethodId) : Intact (invoke access method) act := by
  unfold invoke
  split
  · exact intact_popReference.bind fun _ _ _ => intact_pure _
  · split
    · exact (intact_popArguments _ _).bind fun args _ _ => intact_pure _
    · refine (intact_popArguments _ _).bind fun args _ _ => (intact_expectReference _).bind fun ref _ _ => ?_
      exact (intact_orHalt _ ref).bind fun _ _ _ => intact_pure _

theorem intact_leave (category : Option Category) : Intact (leave category) act := by
  cases category with
  | none => exact intact_pure _
  | some category => exact intact_pop.bind fun v _ _ => (intact_expectCategory _ v).bind fun _ _ _ => intact_pure _

theorem intact_load (frame : Frame) (slot : Number) : Intact (orRaise (frame.load slot)) act := by
  refine intact_orRaise fun fault hfault => ?_
  unfold Frame.load at hfault
  split at hfault <;> cases hfault
  exact id

theorem intact_incr (slot amount : Int) : Intact (incr slot amount) act := by
  refine intact_get.bind fun _ _ _ => (intact_load _ _).bind fun v _ _ => (intact_expectInt v).bind fun n _ _ => ?_
  exact (intact_modify _).bind fun _ _ _ => intact_pure _

theorem intact_dup : Intact (execute .dup) act := by
  refine intact_get.bind fun _ _ _ => (intact_orRaise fun fault hfault => ?_).bind fun v _ _ => intact_push v _
  unfold OperandStack.peek at hfault
  split at hfault <;> cases hfault
  exact id

theorem intact_cast (target : CastTarget) : Intact (cast target) act := by
  refine intact_pop.bind fun v _ _ => (intact_expectInt v).bind fun n _ _ => ?_
  split
  · exact intact_mistyped _ _
  · exact intact_push _ _

/-- Where the references on the stack have entries, no instruction finds a broken machine. -/
theorem execute_intact (h : Backed act) (i : Instruction) : Intact (execute i) act := by
  cases i with
  | push v => exact intact_push v _
  | load category slot =>
    refine intact_get.bind fun _ _ _ => (intact_load _ _).bind fun v _ _ => ?_
    exact (intact_expectCategory _ v).bind fun w _ _ => intact_push w _
  | store category slot =>
    refine intact_pop.bind fun v _ _ => (intact_expectCategory _ v).bind fun _ _ _ => ?_
    exact (intact_modify _).bind fun _ _ _ => intact_pure _
  | binary operator =>
    refine intact_popInt.bind fun right _ _ => intact_popInt.bind fun left _ _ => ?_
    exact (intact_orHalt _ _).bind fun n _ _ => intact_push _ _
  | negate => exact intact_popInt.bind fun n _ _ => intact_push _ _
  | incr slot amount => exact intact_incr slot amount
  | dup => exact intact_dup
  | pop => exact intact_pop.bind fun _ _ _ => intact_pure _
  | branch condition target =>
    refine intact_pop.bind fun right _ _ => (intact_comparand _ right).bind fun b _ _ => ?_
    refine intact_pop.bind fun left _ _ => (intact_comparand _ left).bind fun a _ _ => ?_
    exact intact_decideJump _ a b target
  | branchZero condition target =>
    refine intact_pop.bind fun v _ _ => (intact_comparand _ v).bind fun a _ _ => ?_
    exact intact_decideJump _ a _ target
  | goto target => exact intact_pure _
  | get isStatic field =>
    cases isStatic
    · exact intact_getField h field
    · exact intact_getStatic field
  | put isStatic field =>
    cases isStatic
    · exact intact_putField h field
    · exact intact_pop.bind fun v _ _ => (intact_modify _).bind fun _ _ _ => intact_pure _
  | new className => exact intact_newObject className
  | newArray element => exact intact_newArray element
  | arrayLoad element => exact intact_arrayLoad h
  | arrayStore element => exact intact_arrayStore h
  | arrayLength => exact intact_arrayLength h
  | invoke access method => exact intact_invoke access method
  | «return» category => exact intact_leave category
  | cast target => exact intact_cast target

end Instructions

end Exec

end Bytecode
