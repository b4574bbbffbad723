import Bytecode.Proofs.Renaming
/-!
# Instructions do not see the names of keys

`Renames` says that an action, taken in an activation and in the renamed one, ends
alike and leaves the second one renamed. Actions that are built from others have
this from their parts (`Renames.bind`), and `execute_renames` says it of all
instructions: of one that pushes a value, if the value has no key in it, and of
a branch, if its operands do not clash.
-/
namespace Bytecode

/-- The second activation is the first one renamed, and there are entries behind all renamed keys. -/
structure Activation.Renamed {bound : Nat} (p : Renaming bound) (act act' : Activation) : Prop where
  bound_le : bound ≤ act.heap.size
  eq : act.rename p = act'

/-- A number and a key that are equal only before the renaming, or only after it. -/
def Value.Clashes {bound : Nat} (p : Renaming bound) (v w : Value) : Prop :=
  ∃ n key, v.toInt? = some n ∧ w = .reference (some key) ∧ ¬(key = .int n ↔ key.rename p = .int n)

/-! ## Comparing -/

namespace Condition

/-- What a condition that does not order makes of whether its operands are the same. -/
def ofIdentity (condition : Condition) (same : Bool) : Bool :=
  match condition with
  | ne | isnot => !same
  | _ => same

theorem ofIdentity_inj {condition : Condition} {same same' : Bool} :
    condition.ofIdentity same = condition.ofIdentity same' ↔ same = same' := by
  cases condition <;> simp [ofIdentity]

/-- A condition that does not order only asks whether the operands are the same. -/
theorem compare_of_identity {condition : Condition} (h : condition.isOrdering = false) (a b : Option Number)
    (site : Text) : condition.compare a b site = .ok (condition.ofIdentity (Value.sameKey a b)) := by
  cases condition with
  | lt | ge | gt | le => cases h
  | _ => cases a <;> cases b <;> rfl

end Condition

section

variable {bound : Nat} {p : Renaming bound}

/-- What is compared for an operand, renamed: the key of a reference, or the number as it is. -/
def Value.renameComparand (p : Renaming bound) : Value → Option Number → Option Number
  | .reference _, ref => ref.map (Number.rename p)
  | _, x => x

theorem Value.renameComparand_of_toInt? {v : Value} {n : Int} (h : v.toInt? = some n) (x : Option Number) :
    v.renameComparand p x = x := by
  cases v with
  | reference ref => cases h
  | _ => rfl

/-- What is no number is not renamed, and nothing is renamed to it. -/
theorem Value.renameComparand_eq_notANumber (v : Value) (x : Option Number) :
    v.renameComparand p x = some .notANumber ↔ x = some .notANumber := by
  cases v with
  | reference ref =>
    cases x with
    | none => simp [renameComparand]
    | some key =>
      have hkey : key.rename p = .notANumber ↔ key = .notANumber := Number.rename_inj (y := .notANumber)
      simpa [renameComparand] using hkey
  | _ => exact Iff.rfl

/-- Operands that do not clash are equal after the renaming if and only if they were before. -/
theorem renameComparand_inj {condition : Condition} {left right : Value} {a b : Option Number}
    (ha : Compares condition left a) (hb : Compares condition right b) (hclear : ¬left.Clashes p right)
    (hclear' : ¬right.Clashes p left) : left.renameComparand p a = right.renameComparand p b ↔ a = b := by
  have hmixed : ∀ {v : Value} {n : Int} {ref : Option Number}, v.toInt? = some n → ¬v.Clashes p (.reference ref) →
      (ref.map (Number.rename p) = some (.int n) ↔ ref = some (.int n)) := by
    intro v n ref hn hclear
    cases ref with
    | none => simp
    | some key =>
      have hagree : key = .int n ↔ key.rename p = .int n := Classical.byContradiction fun hne =>
        hclear ⟨n, key, hn, rfl, hne⟩
      simpa using hagree.symm
  cases ha with
  | scalar hn =>
    rw [Value.renameComparand_of_toInt? hn]
    cases hb with
    | scalar hm => rw [Value.renameComparand_of_toInt? hm]
    | reference _ hne => rw [eq_comm, eq_comm (b := b)]; exact hmixed hn hclear
  | reference ref hne =>
    cases hb with
    | scalar hm => rw [Value.renameComparand_of_toInt? hm]; exact hmixed hm hclear'
    | reference ref' hne' =>
      -- Different keys have different names.
      exact (Option.map_injective fun _ _ => Number.rename_injective).eq_iff

/-- Operands that do not clash are compared alike. -/
theorem sameKey_renameComparand {condition : Condition} {left right : Value} {a b : Option Number}
    (ha : Compares condition left a) (hb : Compares condition right b) (hclear : ¬left.Clashes p right)
    (hclear' : ¬right.Clashes p left) :
    Value.sameKey (left.renameComparand p a) (right.renameComparand p b) = Value.sameKey a b := by
  rw [Bool.eq_iff_iff, Value.sameKey_iff, Value.sameKey_iff, renameComparand_inj ha hb hclear hclear',
    Ne, left.renameComparand_eq_notANumber]

/-! ## Faults -/

/-- What an image reports has no keys in it. -/
theorem Fault.OfImage.rename_eq {fault : Fault} (h : fault.OfImage) : fault.rename p = fault := by
  cases fault with
  | malformed cause => cases cause <;> first | rfl | exact h.elim
  | _ => rfl

theorem Fault.label_rename (fault : Fault) : (fault.rename p).label = fault.label := by
  cases fault with
  | malformed cause => cases cause <;> rfl
  | _ => rfl

end

namespace Exec

/-- The first action, and the second one in the renamed activation, end alike: with answers that `f`
relates or with a stop and its renaming, and with an activation and its renaming. -/
def Renames {bound : Nat} (p : Renaming bound) {α : Type} (f : α → α) (x x' : Exec α) (act : Activation) : Prop :=
  bound ≤ act.heap.size → Matched (Activation.Renamed p) (fun stop stop' => stop.rename p = stop') (fun a b => f a = b)
    (x act) (x' (act.rename p))

section Actions

variable {bound : Nat} {p : Renaming bound} {α β : Type} {f : α → α} {act : Activation}

theorem Renames.bind {x x' : Exec α} {g : β → β} {k k' : α → Exec β} (hx : Renames p f x x' act)
    (hk : ∀ a act', x act = .ok a act' → Renames p g (k a) (k' (f a)) act') :
    Renames p g (x >>= k) (x' >>= k') act := by
  intro hb
  refine (hx hb).bind_ok fun a _ act' _ hact hab hacts => ?_
  cases hab
  obtain ⟨hb', rfl⟩ := hacts
  exact hk a act' hact hb'

theorem renames_pure {a b : α} (h : f a = b) : Renames p f (pure a) (pure b) act := fun hb => ⟨h, hb, rfl⟩

theorem renames_raise {fault fault' : Fault} (h : fault.rename p = fault') :
    Renames p f (raise fault) (raise fault') act := by
  intro hb
  exact ⟨congrArg Stop.fault h, hb, rfl⟩

theorem renames_halt (outcome : Outcome) : Renames p f (halt outcome) (halt outcome) act := fun hb => ⟨rfl, hb, rfl⟩

theorem renames_orHalt (outcome : Outcome) {x x' : Option α} (h : x.map f = x') :
    Renames p f (orHalt outcome x) (orHalt outcome x') act := by
  subst h
  cases x with
  | some a => exact renames_pure rfl
  | none => exact renames_halt outcome

theorem renames_orRaise {x x' : Except Fault α} (h : x' = (x.map f).mapError (Fault.rename p)) :
    Renames p f (orRaise x) (orRaise x') act := by
  subst h
  cases x with
  | ok a => exact renames_pure rfl
  | error fault => exact renames_raise rfl

theorem renames_get : Renames p (Activation.rename p) get get act := fun hb => ⟨rfl, hb, rfl⟩

theorem renames_modify {update update' : Activation → Activation} (hsize : act.heap.size ≤ (update act).heap.size)
    (h : bound ≤ act.heap.size → (update act).rename p = update' (act.rename p)) :
    Renames p id (modify update) (modify update') act :=
  fun hb => ⟨rfl, Nat.le_trans hb hsize, h hb⟩

/-- Where lookups give what has no keys in it, they do the same. -/
theorem renames_onStore {action : EStateM Fault Store α} (h : Decodes (fun a => f a = a) (answer (action act.store))) :
    Renames p f (onStore action) (onStore action) act := by
  intro hb
  change Matched _ _ _ (onStore action act) (onStore action { act.rename p with store := act.store })
  unfold onStore
  cases hanswer : action act.store with
  | ok a store =>
    rw [hanswer] at h
    exact ⟨h, hb, rfl⟩
  | error fault store =>
    rw [hanswer] at h
    exact ⟨congrArg Stop.fault (Fault.OfImage.rename_eq h), hb, rfl⟩

/-! ## Operands -/

theorem renames_site : Renames p id site site act := fun hb => ⟨rfl, hb, rfl⟩

theorem renames_push {v w : Value} (h : v.rename p = w) : Renames p id (push v) (push w) act := by
  subst h
  exact renames_modify (Nat.le_refl _) fun _ => rfl

theorem renames_pushNext {v w : Value} (h : v.rename p = w) :
    Renames p (Control.rename p) (do push v; return .next) (do push w; return .next) act :=
  (renames_push h).bind fun _ _ _ => renames_pure rfl

theorem renames_pop : Renames p (Value.rename p) pop pop act := by
  intro hb
  have hstack : (act.rename p).frame.stack = act.frame.stack.map (Value.rename p) := rfl
  rw [pop_apply, pop_apply, hstack]
  cases act.frame.stack with
  | nil => exact ⟨rfl, hb, rfl⟩
  | cons v rest => exact ⟨rfl, hb, rfl⟩

theorem renames_mistyped (expected got : Text) :
    Renames p f (do raise (.mistyped expected got (← site))) (do raise (.mistyped expected got (← site))) act :=
  renames_site.bind fun _ _ _ => renames_raise rfl

theorem renames_expectInt (v : Value) : Renames p id (expectInt v) (expectInt (v.rename p)) act := by
  unfold expectInt
  rw [Value.toInt?_rename, Value.kind_rename]
  cases v.toInt? with
  | some n => exact renames_pure rfl
  | none => exact renames_mistyped _ _

theorem renames_expectReference (v : Value) :
    Renames p (Option.map (Number.rename p)) (expectReference v) (expectReference (v.rename p)) act := by
  cases v with
  | reference ref => exact renames_pure rfl
  | _ => exact renames_mistyped _ _

theorem renames_expectCategory (category : Category) (v : Value) :
    Renames p (Value.rename p) (expectCategory category v) (expectCategory category (v.rename p)) act := by
  unfold expectCategory
  rw [Value.fits_rename, Value.kind_rename]
  split
  · exact renames_pure rfl
  · exact renames_mistyped _ _

theorem renames_popInt : Renames p id popInt popInt act := renames_pop.bind fun v _ _ => renames_expectInt v

theorem renames_popReference : Renames p (Option.map (Number.rename p)) popReference popReference act :=
  renames_pop.bind fun v _ _ => renames_expectReference v

theorem renames_popKey : Renames p (Number.rename p) popKey popKey act :=
  renames_popReference.bind fun _ _ _ => renames_orHalt _ rfl

theorem renames_popArguments (count : Nat) (args : List Value) :
    Renames p (List.map (Value.rename p)) (popArguments count args)
      (popArguments count (args.map (Value.rename p))) act := by
  induction count generalizing args act with
  | zero => exact renames_pure rfl
  | succ count ih => exact renames_pop.bind fun v _ _ => ih (v :: args)

theorem renames_comparand (condition : Condition) (v : Value) :
    Renames p (v.renameComparand p) (comparand condition v) (comparand condition (v.rename p)) act := by
  cases v with
  | reference ref =>
    change Renames _ _ (if _ then _ else _) (if _ then _ else _) _
    split
    · exact renames_mistyped _ _
    · exact renames_pure rfl
  | _ => exact (renames_expectInt _).bind fun n _ _ => renames_pure rfl

theorem renames_decideJump {condition : Condition} {a b a' b' : Option Number} (target : Int)
    (h : ∀ site, condition.compare a' b' site = condition.compare a b site) :
    Renames p (Control.rename p) (decideJump condition a b target) (decideJump condition a' b' target) act := by
  refine renames_site.bind fun site _ _ => ?_
  refine (renames_orRaise (f := id) ?_).bind fun taken _ _ => ?_
  · rw [id, h]
    cases hcompare : condition.compare a b site with
    | ok taken => rfl
    | error fault =>
      -- No comparison fails with a key in its message.
      obtain rfl : fault = .mistyped "int" "reference" site := by
        cases condition <;> cases a <;> cases b <;> cases hcompare <;> rfl
      rfl
  · cases taken <;> exact renames_pure rfl

/-! ## The heap -/

/-- Reading an entry does not see the names of keys if it does not in the activation's heap. -/
theorem renames_read (read : Number → Text → Heap → Except Fault α) {ref : Number}
    (h : bound ≤ act.heap.size → ∀ site, read (ref.rename p) site (act.heap.rename p) =
      ((read ref site act.heap).map f).mapError (Fault.rename p)) :
    Renames p f (do let act ← get; orRaise (read ref (← site) act.heap))
      (do let act ← get; orRaise (read (ref.rename p) (← site) act.heap)) act := by
  intro hb
  refine (renames_get.bind fun act' act'' hget => renames_site.bind fun site _ _ => renames_orRaise ?_) hb
  obtain ⟨rfl, rfl⟩ := get_eq_ok.1 hget
  exact h hb site

theorem renames_arrayOf (ref : Number) :
    Renames p (fun array => (array.1, array.2.map (Value.rename p))) (arrayOf ref) (arrayOf (ref.rename p)) act := by
  refine renames_read Heap.getArray fun hb site => ?_
  unfold Heap.getArray Heap.get
  rw [Heap.get?_rename hb]
  cases act.heap.get? ref with
  | none => rfl
  | some v => cases v <;> rfl

theorem renames_objectOf (ref : Number) :
    Renames p (fun object => (object.1, Table.mapValues (Value.rename p) object.2)) (objectOf ref)
      (objectOf (ref.rename p)) act := by
  refine renames_read Heap.getObject fun hb site => ?_
  unfold Heap.getObject Heap.get
  rw [Heap.get?_rename hb]
  cases act.heap.get? ref with
  | none => rfl
  | some v => cases v <;> rfl

theorem renames_placeIn (items : List Value) (index : Int) :
    Renames p id (placeIn items index) (placeIn (items.map (Value.rename p)) index) act := by
  unfold placeIn
  rw [List.length_map]
  split
  · exact renames_pure rfl
  · exact renames_halt _

theorem renames_coerce (element : Ty) (v : Value) :
    Renames p (Value.rename p) (coerce element v) (coerce element (v.rename p)) act := by
  cases element with
  | primitive type => exact (renames_expectInt v).bind fun n _ _ => renames_pure (Value.rename_narrow type n)
  | _ =>
    cases v with
    | reference ref => exact renames_pure rfl
    | _ => exact renames_mistyped _ _

theorem renames_set (ref : Number) {v w : Value} (h : v.renameParts p = w) :
    Renames p id (modify fun act => { act with heap := act.heap.set ref v })
      (modify fun act => { act with heap := act.heap.set (ref.rename p) w }) act := by
  subst h
  refine renames_modify (by simp) fun hb => ?_
  change Activation.mk _ ((act.heap.set ref v).rename p) _ _ = _
  rw [Heap.rename_set hb]
  rfl

/-- A fresh key is its own name. -/
theorem renames_allocate {v w : Value} (h : v.renameParts p = w) : Renames p id (allocate v) (allocate w) act := by
  subst h
  intro hb
  refine (renames_get.bind fun act' act'' hget => ?_) hb
  obtain ⟨rfl, rfl⟩ := get_eq_ok.1 hget
  refine Renames.bind (f := id) (renames_modify (by simp) fun hb => ?_) fun _ _ _ => renames_push ?_
  · change Activation.mk _ ((act.heap.allocate v).rename p) _ _ = _
    rw [Heap.rename_allocate hb]
    rfl
  · change Value.reference (some (Number.rename p _)) = .reference (some (.int (act.heap.rename p).size))
    rw [Number.rename_fresh hb, Heap.size_rename]

theorem renames_staticOf (field : FieldRef) : Renames p (Value.rename p) (staticOf field) (staticOf field) act := by
  refine renames_get.bind fun act' act'' hget => ?_
  obtain ⟨rfl, rfl⟩ := get_eq_ok.1 hget
  have hvalue : Table.get? field.text (act.rename p).statics =
      (Table.get? field.text act.statics).map (Value.rename p) := Table.get?_mapValues ..
  rw [hvalue]
  cases Table.get? field.text act.statics with
  | some v => exact renames_pure rfl
  | none => exact renames_onStore ((Store.decodes_staticValue field _).mono fun v hv => hv.rename_eq)

theorem renames_load (slot : Number) (frame : Frame) :
    Renames p (Value.rename p) (orRaise (frame.load slot)) (orRaise ((frame.rename p).load slot)) act := by
  refine renames_orRaise ?_
  have hvalue : Table.get? slot (frame.rename p).locals = (Table.get? slot frame.locals).map (Value.rename p) :=
    Table.get?_mapValues ..
  rw [Frame.load, Frame.load, hvalue]
  cases Table.get? slot frame.locals <;> rfl

theorem renames_storeLocal (slot : Number) {v w : Value} (h : v.rename p = w) :
    Renames p id (modify fun act => { act with frame := act.frame.store slot v })
      (modify fun act => { act with frame := act.frame.store slot w }) act := by
  subst h
  refine renames_modify (Nat.le_refl _) fun _ => ?_
  change Activation.mk ⟨_, Table.mapValues _ (Table.insert _ _ _), _⟩ _ _ _ = _
  rw [Table.mapValues_insert]
  rfl

end Actions

/-! ## Instructions -/

section Instructions

variable {bound : Nat} {p : Renaming bound} {act : Activation}

/-- The operands of a branch do not clash. -/
def Clear (p : Renaming bound) (act : Activation) : Prop :=
  ∀ right left rest, act.frame.stack = right :: left :: rest → ¬left.Clashes p right ∧ ¬right.Clashes p left

theorem renames_branch (condition : Condition) (target : Int) (hclear : condition.isOrdering = false → Clear p act) :
    Renames p (Control.rename p) (branch condition target) (branch condition target) act := by
  refine renames_pop.bind fun right _ hright => (renames_comparand condition right).bind fun b _ hlook => ?_
  refine renames_pop.bind fun left _ hleft => (renames_comparand condition left).bind fun a _ hlook' => ?_
  obtain ⟨_, hstack, rfl⟩ := pop_eq_ok.1 hright
  obtain ⟨hb, rfl⟩ := comparand_eq_ok.1 hlook
  obtain ⟨rest, hrest, rfl⟩ := pop_eq_ok.1 hleft
  obtain ⟨ha, rfl⟩ := comparand_eq_ok.1 hlook'
  refine renames_decideJump target fun site => ?_
  cases hordering : condition.isOrdering with
  | false =>
    obtain ⟨hclear, hclear'⟩ := hclear hordering right left rest (hstack.trans (congrArg _ hrest))
    rw [Condition.compare_of_identity hordering, Condition.compare_of_identity hordering,
      sameKey_renameComparand ha hb hclear hclear']
  | true =>
    -- Only numbers are ordered, and numbers are not renamed.
    cases ha with
    | scalar hn =>
      cases hb with
      | scalar hm => rw [Value.renameComparand_of_toInt? hn, Value.renameComparand_of_toInt? hm]
      | reference _ h => rw [hordering] at h; cases h
    | reference _ h => rw [hordering] at h; cases h

theorem renames_branchZero (condition : Condition) (target : Int) :
    Renames p (Control.rename p) (branchZero condition target) (branchZero condition target) act := by
  refine renames_pop.bind fun v _ _ => (renames_comparand condition v).bind fun a _ hlook => ?_
  obtain ⟨ha, rfl⟩ := comparand_eq_ok.1 hlook
  cases ha with
  | scalar hn =>
    cases v with
    | reference ref => cases hn
    | _ => exact renames_decideJump target fun _ => rfl
  | reference ref hordering =>
    refine renames_decideJump target fun site => ?_
    rw [Condition.compare_of_identity hordering, Condition.compare_of_identity hordering]
    cases a <;> rfl

theorem renames_newArray (element : Ty) :
    Renames p (Control.rename p) (newArray element) (newArray element) act := by
  refine renames_popInt.bind fun length _ _ => ?_
  simp only [id]
  split
  · exact renames_halt _
  · refine (renames_allocate ?_).bind fun _ _ _ => renames_pure rfl
    simp [Value.renameParts, Value.rename_default]

theorem renames_arrayLoad : Renames p (Control.rename p) arrayLoad arrayLoad act := by
  refine renames_popInt.bind fun index _ _ => renames_popKey.bind fun ref _ _ => ?_
  refine (renames_arrayOf ref).bind fun array _ _ => (renames_placeIn array.2 index).bind fun place _ _ => ?_
  have hitem : (array.2.map (Value.rename p))[place]? = array.2[place]?.map (Value.rename p) := List.getElem?_map
  exact (renames_orHalt _ hitem.symm).bind fun v _ _ => renames_pushNext rfl

theorem renames_arrayStore : Renames p (Control.rename p) arrayStore arrayStore act := by
  refine renames_pop.bind fun v _ _ => renames_popInt.bind fun index _ _ => renames_popKey.bind fun ref _ _ => ?_
  refine (renames_arrayOf ref).bind fun array _ _ => (renames_placeIn array.2 index).bind fun place _ _ => ?_
  refine (renames_coerce array.1 v).bind fun w _ _ => ?_
  refine (renames_set ref ?_).bind fun _ _ _ => renames_pure rfl
  simp [Value.renameParts, List.map_set]

theorem renames_arrayLength : Renames p (Control.rename p) arrayLength arrayLength act := by
  refine renames_popKey.bind fun ref _ _ => (renames_arrayOf ref).bind fun array _ _ => renames_pushNext ?_
  rw [List.length_map]
  rfl

theorem renames_newObject (className : Text) :
    Renames p (Control.rename p) (newObject className) (newObject className) act := by
  unfold newObject
  split
  · exact renames_halt _
  · have hlookup : Decodes (fun info => id info = info) (answer (Store.classInfo className act.store)) :=
      (Store.reads_classInfo className _).mono fun _ _ => rfl
    refine (renames_onStore hlookup).bind fun info _ _ => (renames_allocate ?_).bind fun _ _ _ => renames_pure rfl
    have hfields : Table.mapValues (Value.rename p) (freshFields info) = freshFields info :=
      Table.mapValues_eq_self fun entry hentry => (Value.within_freshFields 0 info entry hentry).rename_eq
    exact congrArg (Value.object className) hfields

theorem renames_getField (field : FieldRef) : Renames p (Control.rename p) (getField field) (getField field) act := by
  refine renames_popKey.bind fun ref _ _ => (renames_objectOf ref).bind fun object _ _ => ?_
  refine (renames_orRaise (f := Value.rename p) ?_).bind fun v _ _ => renames_pushNext rfl
  unfold fieldOf
  rw [Table.get?_mapValues]
  cases Table.get? field.name object.2 <;> rfl

theorem renames_putField (field : FieldRef) : Renames p (Control.rename p) (putField field) (putField field) act := by
  refine renames_pop.bind fun v _ _ => renames_popKey.bind fun ref _ _ => ?_
  refine (renames_objectOf ref).bind fun object _ _ => ?_
  refine (renames_set ref ?_).bind fun _ _ _ => renames_pure rfl
  simp [Value.renameParts, Table.mapValues_insert]

theorem renames_putStatic (field : FieldRef) :
    Renames p (Control.rename p) (putStatic field) (putStatic field) act := by
  refine renames_pop.bind fun v _ _ => Renames.bind (f := id) (renames_modify (Nat.le_refl _) fun _ => ?_)
    fun _ _ _ => renames_pure rfl
  change Activation.mk _ _ (Table.mapValues _ (Table.insert _ _ _)) _ = _
  rw [Table.mapValues_insert]
  rfl

theorem renames_call (method : MethodId) (args : List Value) :
    Renames p (Control.rename p) (pure (.call (.start method args)))
      (pure (.call (.start method (args.map (Value.rename p))))) act :=
  renames_pure (congrArg Control.call (Frame.rename_start method args))

theorem renames_invoke (access : Access) (method : MethodId) :
    Renames p (Control.rename p) (invoke access method) (invoke access method) act := by
  unfold invoke
  split
  · exact renames_popReference.bind fun _ _ _ => renames_pure rfl
  · split
    · exact (renames_popArguments _ []).bind fun args _ _ => renames_call method args
    · refine (renames_popArguments _ []).bind fun args _ _ => ?_
      have hreceiver : (args.map (Value.rename p)).headD .null = (args.headD .null).rename p := by
        cases args <;> rfl
      simp only [hreceiver]
      refine (renames_expectReference _).bind fun ref _ _ => (renames_orHalt _ rfl).bind fun _ _ _ => ?_
      exact renames_call method args

theorem renames_leave (category : Option Category) :
    Renames p (Control.rename p) (leave category) (leave category) act := by
  cases category with
  | none => exact renames_pure rfl
  | some category =>
    exact renames_pop.bind fun v _ _ => (renames_expectCategory category v).bind fun _ _ _ => renames_pure rfl

theorem renames_binary (operator : Operator) :
    Renames p (Control.rename p) (binary operator) (binary operator) act := by
  refine renames_popInt.bind fun right _ _ => renames_popInt.bind fun left _ _ => ?_
  exact (renames_orHalt (f := id) _ (by simp)).bind fun n _ _ => renames_pushNext (Value.rename_narrow _ _)

theorem renames_incr (slot amount : Int) :
    Renames p (Control.rename p) (incr slot amount) (incr slot amount) act := by
  refine renames_get.bind fun act' _ _ => (renames_load _ act'.frame).bind fun v _ _ => ?_
  refine (renames_expectInt v).bind fun n _ _ => (renames_storeLocal _ ?_).bind fun _ _ _ => renames_pure rfl
  exact Value.rename_narrow _ _

theorem renames_dup : Renames p (Control.rename p) (execute .dup) (execute .dup) act := by
  refine renames_get.bind fun act' _ _ => ?_
  refine (renames_orRaise (f := Value.rename p) ?_).bind fun v _ _ => renames_pushNext rfl
  change OperandStack.peek (act'.frame.stack.map (Value.rename p)) = _
  cases act'.frame.stack <;> rfl

theorem renames_cast (target : CastTarget) : Renames p (Control.rename p) (cast target) (cast target) act := by
  refine renames_pop.bind fun v _ _ => (renames_expectInt v).bind fun n _ _ => ?_
  cases v with
  | boolean b => exact renames_mistyped _ _
  | _ => exact renames_pushNext (Value.rename_narrow _ _)

/-- Instructions do on a renamed activation what they do on the activation itself, unless they push a
key or compare one with a number. -/
theorem execute_renames (i : Instruction) (hi : i.Plain)
    (hclear : ∀ condition target, i = .branch condition target → condition.isOrdering = false → Clear p act) :
    Renames p (Control.rename p) (execute i) (execute i) act := by
  cases i with
  | push v =>
    have hv : v.Within 0 := hi
    exact renames_pushNext hv.rename_eq
  | load category slot =>
    refine renames_get.bind fun act' _ _ => (renames_load _ act'.frame).bind fun v _ _ => ?_
    exact (renames_expectCategory category v).bind fun w _ _ => renames_pushNext rfl
  | store category slot =>
    refine renames_pop.bind fun v _ _ => (renames_expectCategory category v).bind fun w _ _ => ?_
    exact (renames_storeLocal _ rfl).bind fun _ _ _ => renames_pure rfl
  | binary operator => exact renames_binary operator
  | negate => exact renames_popInt.bind fun n _ _ => renames_pushNext (Value.rename_narrow _ _)
  | incr slot amount => exact renames_incr slot amount
  | dup => exact renames_dup
  | pop => exact renames_pop.bind fun _ _ _ => renames_pure rfl
  | branch condition target => exact renames_branch condition target (hclear condition target rfl)
  | branchZero condition target => exact renames_branchZero condition target
  | goto target => exact renames_pure rfl
  | get isStatic field =>
    cases isStatic
    · exact renames_getField field
    · exact (renames_staticOf field).bind fun v _ _ => renames_pushNext rfl
  | put isStatic field =>
    cases isStatic
    · exact renames_putField field
    · exact renames_putStatic field
  | new className => exact renames_newObject className
  | newArray element => exact renames_newArray element
  | arrayLoad element => exact renames_arrayLoad
  | arrayStore element => exact renames_arrayStore
  | arrayLength => exact renames_arrayLength
  | invoke access method => exact renames_invoke access method
  | «return» category => exact renames_leave category
  | cast target => exact renames_cast target

end Instructions

end Exec

end Bytecode
