import Bytecode.Proofs.History
/-!
# Memory is what the history says

`State.Remembers` says that local slots, arrays and objects are what a history of the run
makes them. It holds of the first machine and is kept by every step
(`Recorded.remembers`). `Happens` sums up what an instruction can do to memory and the
event by which it is told, so that the slots, the items and the fields are each looked
at once for every kind of event.
-/
namespace Bytecode

/-! ## What an instruction does to memory -/

/-- Control goes on in the same activation. -/
def Control.Stays : Control → Prop
  | .next | .jump _ => True
  | _ => False

theorem stays_branchTo (taken : Bool) (target : Int) : (branchTo taken target).Stays := by
  cases taken <;> trivial

/-- What an instruction that completes does to slots, arrays and objects, with the event that tells it. -/
inductive Happens (act act' : Activation) : Option Event → Control → Prop
  | quiet {control : Control} : control.Stays → act'.heap = act.heap → act'.frame.locals = act.frame.locals →
      Happens act act' none control
  | enter {method args} : act'.heap = act.heap → act'.frame.locals = act.frame.locals →
      Happens act act' (some (.enter args)) (.call (.start method args))
  | leave {returned} : act'.heap = act.heap → Happens act act' (some .leave) (.leave returned)
  | write {slot v} : act'.heap = act.heap → act'.frame.locals = Table.insert (.int slot) v act.frame.locals →
      Happens act act' (some (.write slot v)) .next
  | makeArray {element items} : act'.heap = act.heap.allocate (.array element items) →
      act'.frame.locals = act.frame.locals →
      Happens act act' (some (.makeArray (.int act.heap.size) element items)) .next
  | storeItem {key element items place v} : act.heap.get? key = some (.array element items) → place < items.length →
      act'.heap = act.heap.set key (.array element (items.set place (v.as element))) →
      act'.frame.locals = act.frame.locals → Happens act act' (some (.storeItem key place v)) .next
  | makeObject {className info store} : Store.classInfo className act.store = .ok info store →
      act'.heap = act.heap.allocate (.object className (Exec.freshFields info)) →
      act'.frame.locals = act.frame.locals →
      Happens act act' (some (.makeObject (.int act.heap.size) className)) .next
  | putField {key className fields name v} : act.heap.get? key = some (.object className fields) →
      act'.heap = act.heap.set key (.object className (Table.insert name v fields)) →
      act'.frame.locals = act.frame.locals → Happens act act' (some (.putField key name v)) .next

theorem Coerces.eq_as {element : Ty} {v w : Value} (h : Coerces element v w) : w = v.as element := by
  cases h with
  | scalar hn => simp [Value.as, hn]
  | reference ref _ => cases element <;> rfl

/-- What a completed instruction does is what is told of it, if the history is right about the slots. -/
theorem Effect.happens {act act' : Activation} {i : Instruction} {control : Control} (h : Effect act i control act')
    {past : History} (hslots : ∀ slot : Int, Table.get? (.int slot) act.frame.locals = past.slot? slot 0) :
    Happens act act' (i.event? act.frame.stack act.heap.size past) control := by
  cases h with
  | store hstack hfits =>
    rw [hstack]
    exact .write rfl rfl
  | @incr slot amount n v hget hn =>
    have hevent : Instruction.event? act.frame.stack act.heap.size past (.incr slot amount) =
        some (.write slot (.narrow .int (Number.nearestInt (n + amount)))) := by
      simp [Instruction.event?, ← hslots, hget, hn]
    rw [hevent]
    exact .write rfl rfl
  | branch _ _ _ _ hcontrol =>
    subst hcontrol
    exact .quiet (stays_branchTo _ _) rfl rfl
  | branchZero _ _ _ hcontrol =>
    subst hcontrol
    exact .quiet (stays_branchTo _ _) rfl rfl
  | putField hstack hentry =>
    rw [hstack]
    exact .putField hentry rfl rfl
  | new hne hinfo => exact .makeObject hinfo rfl rfl
  | @newArray element v n rest hstack hn hpos =>
    have hevent : Instruction.event? act.frame.stack act.heap.size past (.newArray element) =
        some (.makeArray (.int act.heap.size) element (List.replicate n.toNat (.default element))) := by
      simp [Instruction.event?, hstack, hn]
    rw [hevent]
    exact .makeArray rfl rfl
  | @arrayStore type element index v w n ref items rest hstack hn hentry hpos hlt hcoerces =>
    have hevent : Instruction.event? act.frame.stack act.heap.size past (.arrayStore type) =
        some (.storeItem ref n.toNat v) := by
      simp [Instruction.event?, hstack, hn]
    rw [hevent]
    exact .storeItem hentry hlt (by rw [hcoerces.eq_as]) rfl
  | @skipConstructor method ref rest hroot hstack =>
    have hevent : Instruction.event? act.frame.stack act.heap.size past (.invoke .special method) = none := by
      simp [Instruction.event?, hroot]
    rw [hevent]
    exact .quiet trivial rfl rfl
  | @call access method args rest hroot hstack hcount hreceiver =>
    -- The arguments lie on the stack in the order opposite to that of the slots.
    have hevent : Instruction.event? act.frame.stack act.heap.size past (.invoke access method) =
        some (.enter args) := by
      have htake : (args.reverse ++ rest).take (argumentCount access method) = args.reverse :=
        List.take_left' (by simpa using hcount)
      simp only [Instruction.event?, if_neg hroot, hstack, htake, List.reverse_reverse]
    rw [hevent]
    exact .enter rfl rfl
  | leaveNothing => exact .leave rfl
  | leave hstack hfits => exact .leave rfl
  | _ => exact .quiet trivial rfl rfl

/-! ## Slots -/

namespace History

/-- The local slots of frames with so many others above them are what the history says. -/
def Slots (past : History) (depth : Nat) (frames : List Frame) : Prop :=
  ∀ n frame, frames[n]? = some frame → ∀ slot : Int,
    Table.get? (.int slot) frame.locals = past.slot? slot (depth + n)

section Slots

variable {past past' : History} {depth depth' : Nat} {frame : Frame} {frames : List Frame}

theorem slots_cons : past.Slots depth (frame :: frames) ↔
    (∀ slot : Int, Table.get? (.int slot) frame.locals = past.slot? slot depth) ∧ past.Slots (depth + 1) frames := by
  constructor
  · intro h
    refine ⟨h 0 frame rfl, fun n other hother slot => ?_⟩
    rw [h (n + 1) other hother slot, Nat.add_right_comm, Nat.add_assoc]
  · rintro ⟨hframe, hframes⟩ n other hother slot
    cases n with
    | zero =>
      cases hother
      exact hframe slot
    | succ n =>
      rw [hframes n other hother slot, Nat.add_right_comm, Nat.add_assoc]

/-- Another history that says the same of these frames. -/
theorem Slots.of_eq (h : past.Slots depth frames)
    (heq : ∀ slot n, past'.slot? slot (depth' + n) = past.slot? slot (depth + n)) : past'.Slots depth' frames :=
  fun n frame hframe slot => (h n frame hframe slot).trans (heq slot n).symm

/-- A caller that goes on has its slots as they were. -/
theorem Slots.resume (h : past.Slots depth frames) (act : Activation) (returned : Option Value) :
    past.Slots depth ((Control.leave returned).frames act frames) := by
  cases frames with
  | nil => exact h
  | cons caller callers =>
    obtain ⟨hcaller, hcallers⟩ := slots_cons.1 h
    refine slots_cons.2 ⟨fun slot => ?_, hcallers⟩
    rw [← hcaller slot]
    cases returned <;> rfl

/-- The arguments of a fresh frame are in the slots from 0 on. -/
theorem get?_start (method : MethodId) (args : List Value) (slot : Int) :
    Table.get? (.int slot) (Frame.start method args).locals = if 0 ≤ slot then args[slot.toNat]? else none := by
  have hfrom : ∀ k : Nat, Table.get? (.int slot) ((args.zipIdx k).map fun entry => (Number.int entry.2, entry.1)) =
      if (k : Int) ≤ slot then args[(slot - k).toNat]? else none := by
    induction args with
    | nil => simp
    | cons v args ih =>
      intro k
      simp only [List.zipIdx_cons, List.map_cons, Table.get?, Number.int.injEq, ih]
      by_cases hhere : (k : Int) = slot
      · subst hhere
        simp
      · rw [if_neg hhere]
        by_cases hle : (k : Int) ≤ slot
        · have hnext : (slot - k).toNat = (slot - (k + 1 : Nat)).toNat + 1 := by omega
          rw [if_pos (by omega), if_pos hle, hnext, List.getElem?_cons_succ]
        · rw [if_neg (by omega), if_neg hle]
  have hstart := hfrom 0
  simp only [Int.natCast_zero, Int.sub_zero] at hstart
  exact hstart

theorem Slots.step {act act' : Activation} {event : Option Event} {control : Control} {callers : List Frame}
    (h : past.Slots 0 (act.frame :: callers)) (hhappens : Happens act act' event control) :
    Slots (event.toList ++ past) 0 (control.frames act' callers) := by
  obtain ⟨hframe, hcallers⟩ := slots_cons.1 h
  -- What happens to arrays and objects does not concern slots.
  have hstays : ∀ {past' : History} {frame : Frame}, frame.locals = act.frame.locals →
      (∀ slot depth, past'.slot? slot depth = past.slot? slot depth) → past'.Slots 0 (frame :: callers) := by
    intro past' frame hlocals heq
    refine slots_cons.2 ⟨fun slot => ?_, hcallers.of_eq fun slot n => heq slot _⟩
    rw [hlocals, heq, hframe]
  cases hhappens with
  | quiet hcontrol _ hlocals =>
    cases control with
    | next => exact hstays hlocals fun _ _ => rfl
    | jump target => exact hstays hlocals fun _ _ => rfl
    | _ => exact hcontrol.elim
  | enter _ hlocals =>
    refine slots_cons.2 ⟨get?_start _ _, slots_cons.2 ⟨fun slot => ?_, hcallers.of_eq fun slot n => ?_⟩⟩
    · rw [hlocals, hframe]
      rfl
    · rw [Nat.add_right_comm (0 + 1) 1 n]
      rfl
  | leave =>
    refine Slots.resume (hcallers.of_eq fun slot n => ?_) _ _
    change past.slot? slot (0 + n + 1) = _
    rw [Nat.add_right_comm]
  | @write slot v _ hlocals =>
    refine slots_cons.2 ⟨fun other => ?_, hcallers.of_eq fun other n => ?_⟩
    · change Table.get? _ act'.frame.locals = slot? other (.write slot v :: past) 0
      rw [slot?, hlocals]
      by_cases hsame : slot = other
      · subst hsame
        simp [Table.get?_insert_self]
      · rw [Table.get?_insert_of_ne (by simpa using Ne.symm hsame), if_neg (by simp [hsame]), hframe]
    · change slot? other (.write slot v :: past) (0 + 1 + n) = _
      rw [slot?, if_neg (by omega)]
  | makeArray _ hlocals => exact hstays hlocals fun _ _ => rfl
  | storeItem _ _ _ hlocals => exact hstays hlocals fun _ _ => rfl
  | makeObject _ _ hlocals => exact hstays hlocals fun _ _ => rfl
  | putField _ _ hlocals => exact hstays hlocals fun _ _ => rfl

end Slots

/-! ## Items -/

/-- The arrays have the element types and the items that the history says. -/
def Items (past : History) (heap : Heap) : Prop :=
  ∀ key element items, heap.get? key = some (.array element items) →
    past.element? key = some element ∧ ∀ place, items[place]? = past.item? key place

section Items

variable {past : History} {heap : Heap}

theorem Items.makeArray (h : past.Items heap) (element : Ty) (items : List Value) :
    Items (.makeArray (.int heap.size) element items :: past) (heap.allocate (.array element items)) := by
  intro key element' items' hentry
  simp only [element?, item?]
  rcases Heap.get?_allocate_eq_some.1 hentry with ⟨rfl, hnew⟩ | ⟨hkey, hold⟩
  · cases hnew
    simp
  · simp only [if_neg (Ne.symm hkey)]
    exact h key element' items' hold

theorem Items.storeItem (h : past.Items heap) {key : Number} {element : Ty} {items : List Value}
    (hentry : heap.get? key = some (.array element items)) {place : Nat} (hlt : place < items.length) (v : Value) :
    Items (.storeItem key place v :: past) (heap.set key (.array element (items.set place (v.as element)))) := by
  intro other element' items' hother
  simp only [element?, item?]
  rcases Heap.get?_set_eq_some.1 hother with ⟨rfl, -, hnew⟩ | ⟨hkey, hold⟩
  · cases hnew
    obtain ⟨helement, hitems⟩ := h other element items hentry
    refine ⟨helement, fun place' => ?_⟩
    rw [List.getElem?_set, helement, ← hitems place']
    simp only [hlt, if_true, true_and, Option.map_some]
  · obtain ⟨helement, hitems⟩ := h other element' items' hold
    refine ⟨helement, fun place' => ?_⟩
    rw [if_neg (by simp [Ne.symm hkey])]
    exact hitems place'

/-- An object takes no array's key. -/
theorem Items.makeObject (h : past.Items heap) (className : Text) (fields : Table Text Value) :
    past.Items (heap.allocate (.object className fields)) := by
  intro key element items hentry
  rcases Heap.get?_allocate_eq_some.1 hentry with ⟨-, hnew⟩ | ⟨-, hold⟩
  · cases hnew
  · exact h key element items hold

theorem Items.putField (h : past.Items heap) (key : Number) (className : Text) (fields : Table Text Value) :
    past.Items (heap.set key (.object className fields)) := by
  intro other element items hentry
  rcases Heap.get?_set_eq_some.1 hentry with ⟨-, -, hnew⟩ | ⟨-, hold⟩
  · cases hnew
  · exact h other element items hold

theorem Items.step {act act' : Activation} {event : Option Event} {control : Control} (h : past.Items act.heap)
    (hhappens : Happens act act' event control) : Items (event.toList ++ past) act'.heap := by
  cases hhappens with
  | quiet _ hheap _ => exact hheap ▸ h
  | enter hheap _ => exact hheap ▸ h
  | leave hheap => exact hheap ▸ h
  | write hheap _ => exact hheap ▸ h
  | makeArray hheap _ => exact hheap ▸ h.makeArray _ _
  | storeItem hentry hlt hheap _ => exact hheap ▸ h.storeItem hentry hlt _
  | makeObject _ hheap _ => exact hheap ▸ h.makeObject _ _
  | putField _ hheap _ => exact hheap ▸ h.putField _ _ _

end Items

/-! ## Fields -/

/-- The objects have the fields that the history says. -/
def Fields (image : Image) (past : History) (heap : Heap) : Prop :=
  ∀ key className fields, heap.get? key = some (.object className fields) →
    ∀ name, Table.get? name fields = past.field? image key name

section Fields

variable {image : Image} {past : History} {heap : Heap}

theorem Fields.makeObject (h : past.Fields image heap) {className : Text} {info : ClassInfo}
    (hinfo : answer (Image.classInfo className image) = .ok info) :
    Fields image (.makeObject (.int heap.size) className :: past)
      (heap.allocate (.object className (Exec.freshFields info))) := by
  intro key className' fields hentry name
  simp only [field?]
  rcases Heap.get?_allocate_eq_some.1 hentry with ⟨rfl, hnew⟩ | ⟨hkey, hold⟩
  · cases hnew
    rw [if_pos rfl, declared?, hinfo]
    exact ClassInfo.get?_freshFields name info
  · rw [if_neg (Ne.symm hkey)]
    exact h key className' fields hold name

theorem Fields.putField (h : past.Fields image heap) {key : Number} {className : Text} {fields : Table Text Value}
    (hentry : heap.get? key = some (.object className fields)) (name : Text) (v : Value) :
    Fields image (.putField key name v :: past) (heap.set key (.object className (Table.insert name v fields))) := by
  intro other className' fields' hother name'
  simp only [field?]
  rcases Heap.get?_set_eq_some.1 hother with ⟨rfl, -, hnew⟩ | ⟨hkey, hold⟩
  · cases hnew
    by_cases hname : name = name'
    · subst hname
      simp [Table.get?_insert_self]
    · rw [Table.get?_insert_of_ne (Ne.symm hname), if_neg (by simp [hname])]
      exact h other className fields hentry name'
  · rw [if_neg (by simp [Ne.symm hkey])]
    exact h other className' fields' hold name'

/-- An array takes no object's key. -/
theorem Fields.makeArray (h : past.Fields image heap) (element : Ty) (items : List Value) :
    past.Fields image (heap.allocate (.array element items)) := by
  intro key className fields hentry
  rcases Heap.get?_allocate_eq_some.1 hentry with ⟨-, hnew⟩ | ⟨-, hold⟩
  · cases hnew
  · exact h key className fields hold

theorem Fields.storeItem (h : past.Fields image heap) (key : Number) (element : Ty) (items : List Value) :
    past.Fields image (heap.set key (.array element items)) := by
  intro other className fields hentry
  rcases Heap.get?_set_eq_some.1 hentry with ⟨-, -, hnew⟩ | ⟨-, hold⟩
  · cases hnew
  · exact h other className fields hold

theorem Fields.step {act act' : Activation} {event : Option Event} {control : Control} (h : past.Fields image act.heap)
    (hknows : act.store.Knows image) (hhappens : Happens act act' event control) :
    Fields image (event.toList ++ past) act'.heap := by
  cases hhappens with
  | quiet _ hheap _ => exact hheap ▸ h
  | enter hheap _ => exact hheap ▸ h
  | leave hheap => exact hheap ▸ h
  | write hheap _ => exact hheap ▸ h
  | makeArray hheap _ => exact hheap ▸ h.makeArray _ _
  | storeItem _ _ hheap _ => exact hheap ▸ h.storeItem _ _ _
  | @makeObject className info store hlookup hheap _ =>
    have hinfo : answer (Image.classInfo className image) = .ok info := by
      rw [← (hknows.classInfo className).1, hlookup]
      rfl
    exact hheap ▸ h.makeObject hinfo
  | putField hentry hheap _ => exact hheap ▸ h.putField hentry _ _

end Fields

end History

/-! ## Runs -/

/-- Local slots, arrays and objects are what the history says. -/
structure State.Remembers (image : Image) (past : History) (state : State) : Prop where
  slots : past.Slots 0 state.frames
  items : past.Items state.heap
  fields : past.Fields image state.heap

namespace State

/-- The arrays among the arguments are made in their order. -/
theorem items_bindArguments {heap : Heap} {past : History} (h : past.Items heap) (values : List Value) :
    History.Items (History.ofArguments heap.size values ++ past) (bindArguments heap values).2 := by
  induction values generalizing heap past with
  | nil => exact h
  | cons v values ih =>
    cases v with
    | array element items =>
      have hrest := ih (h.makeArray element items)
      rw [Heap.size_allocate] at hrest
      rw [History.ofArguments, List.append_assoc]
      exact hrest
    | _ => exact ih h

theorem remembers_initial (image : Image) (method : MethodId) (values : List Value) :
    (initial method values).Remembers image (.initial values) where
  slots := by
    have hnone : ∀ past : History, past.Slots 1 [] := by
      intro past n frame hframe
      cases hframe
    exact History.slots_cons.2 ⟨History.get?_start method _, hnone _⟩
  items := by
    have hempty : History.Items [] Heap.empty := by
      intro key element items hentry
      exact absurd (Heap.mem_of_get? hentry) (Array.not_mem_empty _)
    have hitems := items_bindArguments hempty values
    rw [List.append_nil] at hitems
    exact hitems
  fields := by
    intro key className fields hentry
    have hnone : (initial method values).heap.Objects fun _ _ => False := objects_initial method values
    exact (hnone key className fields hentry).elim

end State

variable {image : Image}

/-- A step leaves a memory that remembers its event too. -/
theorem State.Remembers.step {machine next : Machine} {past : History} (h : machine.state.Remembers image past)
    (hknows : machine.store.Knows image) {frame : Frame} {callers : List Frame} {i : Instruction} {store : Store}
    (hat : machine.At frame callers i store) {move : Move} (hstep : Bytecode.step machine = .next move next) :
    next.state.Remembers image ((i.event? frame.stack machine.state.heap.size past).toList ++ past) := by
  obtain ⟨control, act, heffect, rfl⟩ := hat.effect hstep
  have hframes : past.Slots 0 (frame :: callers) := hat.frames ▸ h.slots
  have hfetched := hknows.fetch frame.pc
  rw [hat.fetched] at hfetched
  have hhappens := heffect.happens (History.slots_cons.1 hframes).1
  exact ⟨History.Slots.step hframes hhappens, History.Items.step h.items hhappens,
    History.Fields.step h.fields hfetched hhappens⟩

theorem Recorded.reaches {first last : Machine} {begun past : History} {k : Nat}
    (h : Recorded first begun k past last) : Reaches first k last := by
  induction h with
  | refl => exact .refl
  | step _ _ hstep ih => exact ih.step hstep

/-- All along a run, memory is what the history says. -/
theorem Recorded.remembers {first last : Machine} {begun past : History} {k : Nat}
    (h : Recorded first begun k past last) (hfirst : first.state.Remembers image begun)
    (hknows : first.store.Knows image) :
    last.state.Remembers image past := by
  induction h with
  | refl => exact hfirst
  | step hbefore hat hstep ih => exact ih.step (hknows.reaches hbefore.reaches) hat hstep

end Bytecode
