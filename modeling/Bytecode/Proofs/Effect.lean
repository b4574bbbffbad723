import Bytecode.Proofs.Lookup
import Bytecode.Step
/-!
# What an instruction does

`Effect` gives for each instruction the operands it takes, what it asks of them
and what it changes. `effect_of_execute` says that an instruction that completes
has that effect and no other, so an invariant of the machine needs one case per
rule and never looks into `execute`.
-/
namespace Bytecode

namespace Activation

/-- The activation with other operands. -/
def withStack (stack : OperandStack) (act : Activation) : Activation :=
  { act with frame := { act.frame with stack } }

/-- The activation with a local slot written. -/
def withLocal (slot : Int) (v : Value) (act : Activation) : Activation :=
  { act with frame := act.frame.store (.int slot) v }

end Activation

/-! ## Operands -/

/-- What a branch compares for an operand. -/
inductive Compares (condition : Condition) : Value → Option Number → Prop
  | scalar {v : Value} {n : Int} : v.toInt? = some n → Compares condition v (some (.int n))
  | reference (ref : Option Number) : condition.isOrdering = false → Compares condition (.reference ref) ref

/-- The other side of a comparison with zero or null. -/
def zeroFor : Value → Option Number
  | .reference _ => none
  | _ => some (.int 0)

/-- What an array of an element type keeps of a value stored in it. -/
inductive Coerces : Ty → Value → Value → Prop
  | scalar {p : Primitive} {v : Value} {n : Int} : v.toInt? = some n → Coerces (.primitive p) v (.narrow p n)
  | reference {element : Ty} (ref : Option Number) : element.isReference →
      Coerces element (.reference ref) (.reference ref)

/-- Where a branch leads. -/
def branchTo (taken : Bool) (target : Int) : Control := if taken then .jump target else .next

theorem leave_ne_branchTo (returned : Option Value) (taken : Bool) (target : Int) :
    Control.leave returned ≠ branchTo taken target := by
  cases taken <;> simp [branchTo]

theorem call_ne_branchTo (callee : Frame) (taken : Bool) (target : Int) :
    Control.call callee ≠ branchTo taken target := by
  cases taken <;> simp [branchTo]

/-- How many operands a call takes: its arguments and, unless it is static, a receiver below them. -/
def argumentCount (access : Access) (method : MethodId) : Nat :=
  method.params.length + if access = .static then 0 else 1

/-! ## Rules -/

open Activation in
/-- The effect of an instruction that completes: control, and the activation afterwards. -/
inductive Effect (act : Activation) : Instruction → Control → Activation → Prop
  | push (v : Value) : Effect act (.push v) .next (act.withStack (v :: act.frame.stack))
  | load {category slot v} : Table.get? (.int slot) act.frame.locals = some v → Exec.fits category v →
      Effect act (.load category slot) .next (act.withStack (v :: act.frame.stack))
  | store {category slot v rest} : act.frame.stack = v :: rest → Exec.fits category v →
      Effect act (.store category slot) .next ((act.withStack rest).withLocal slot v)
  | binary {operator : Operator} {right left : Value} {a b n : Int} {rest} :
      act.frame.stack = right :: left :: rest → left.toInt? = some a → right.toInt? = some b →
      operator.apply a b = some n → Effect act (.binary operator) .next (act.withStack (.narrow .int n :: rest))
  | negate {v : Value} {n : Int} {rest} : act.frame.stack = v :: rest → v.toInt? = some n →
      Effect act .negate .next (act.withStack (.narrow .int (-n) :: rest))
  | incr {slot amount n : Int} {v : Value} :
      Table.get? (.int slot) act.frame.locals = some v → v.toInt? = some n →
      Effect act (.incr slot amount) .next (act.withLocal slot (.narrow .int (Number.nearestInt (n + amount))))
  | dup {v rest} : act.frame.stack = v :: rest → Effect act .dup .next (act.withStack (v :: v :: rest))
  | pop {v rest} : act.frame.stack = v :: rest → Effect act .pop .next (act.withStack rest)
  | branch {condition : Condition} {target right left rest a b taken control} :
      act.frame.stack = right :: left :: rest → Compares condition left a → Compares condition right b →
      condition.compare a b act.frame.pc.text = .ok taken → control = branchTo taken target →
      Effect act (.branch condition target) control (act.withStack rest)
  | branchZero {condition : Condition} {target v rest a taken control} :
      act.frame.stack = v :: rest → Compares condition v a →
      condition.compare a (zeroFor v) act.frame.pc.text = .ok taken → control = branchTo taken target →
      Effect act (.branchZero condition target) control (act.withStack rest)
  | goto (target : Int) : Effect act (.goto target) (.jump target) act
  | getWritten {field v} : Table.get? field.text act.statics = some v →
      Effect act (.get true field) .next (act.withStack (v :: act.frame.stack))
  | getInitial {field v store} : Table.get? field.text act.statics = none →
      Store.staticValue field act.store = .ok v store →
      Effect act (.get true field) .next { act.withStack (v :: act.frame.stack) with store }
  | getField {field ref className fields v rest} : act.frame.stack = .reference (some ref) :: rest →
      act.heap.get? ref = some (.object className fields) → Table.get? field.name fields = some v →
      Effect act (.get false field) .next (act.withStack (v :: rest))
  | putStatic {field v rest} : act.frame.stack = v :: rest →
      Effect act (.put true field) .next
        { act.withStack rest with statics := Table.insert field.text v act.statics }
  | putField {field v ref className fields rest} : act.frame.stack = v :: .reference (some ref) :: rest →
      act.heap.get? ref = some (.object className fields) →
      Effect act (.put false field) .next
        { act.withStack rest with heap := act.heap.set ref (.object className (Table.insert field.name v fields)) }
  | new {className info store} : className ≠ Exec.assertionErrorClass →
      Store.classInfo className act.store = .ok info store →
      Effect act (.new className) .next
        { act.withStack (.reference (some (.int act.heap.size)) :: act.frame.stack) with
          heap := act.heap.allocate (.object className (Exec.freshFields info)), store }
  | newArray {element : Ty} {v : Value} {n : Int} {rest} : act.frame.stack = v :: rest → v.toInt? = some n →
      0 ≤ n → Effect act (.newArray element) .next
        { act.withStack (.reference (some (.int act.heap.size)) :: rest) with
          heap := act.heap.allocate (.array element (List.replicate n.toNat (.default element))) }
  | arrayLoad {type element : Ty} {index v : Value} {n : Int} {ref items rest} :
      act.frame.stack = index :: .reference (some ref) :: rest → index.toInt? = some n →
      act.heap.get? ref = some (.array element items) → 0 ≤ n → items[n.toNat]? = some v →
      Effect act (.arrayLoad type) .next (act.withStack (v :: rest))
  | arrayStore {type element : Ty} {index v w : Value} {n : Int} {ref items rest} :
      act.frame.stack = v :: index :: .reference (some ref) :: rest → index.toInt? = some n →
      act.heap.get? ref = some (.array element items) → 0 ≤ n → n.toNat < items.length → Coerces element v w →
      Effect act (.arrayStore type) .next
        { act.withStack rest with heap := act.heap.set ref (.array element (items.set n.toNat w)) }
  | arrayLength {ref element items rest} : act.frame.stack = .reference (some ref) :: rest →
      act.heap.get? ref = some (.array element items) →
      Effect act .arrayLength .next (act.withStack (.narrow .int items.length :: rest))
  | skipConstructor {method : MethodId} {ref rest} : method.isObjectConstructor →
      act.frame.stack = .reference ref :: rest →
      Effect act (.invoke .special method) .next (act.withStack rest)
  | call {access method args rest} : ¬(access = .special ∧ method.isObjectConstructor = true) →
      act.frame.stack = List.reverse args ++ rest → args.length = argumentCount access method →
      (access ≠ .static → ∃ key, args.head? = some (.reference (some key))) →
      Effect act (.invoke access method) (.call (Frame.start method args)) (act.withStack rest)
  | leaveNothing : Effect act (.return none) (.leave none) act
  | leave {category v rest} : act.frame.stack = v :: rest → Exec.fits category v →
      Effect act (.return (some category)) (.leave (some v)) (act.withStack rest)
  | cast {target : CastTarget} {v : Value} {n : Int} {rest} : act.frame.stack = v :: rest →
      v.toInt? = some n → (∀ b, v ≠ .boolean b) →
      Effect act (.cast target) .next (act.withStack (.narrow target.type n :: rest))

/-! ## The heap -/

theorem Heap.getArray_eq_ok {heap : Heap} {ref : Number} {site : Text} {array : Ty × List Value} :
    heap.getArray ref site = .ok array ↔ heap.get? ref = some (.array array.1 array.2) := by
  unfold Heap.getArray Heap.get
  cases heap.get? ref with
  | none => simp [bind, Except.bind]
  | some v => cases v <;> simp [bind, Except.bind, Prod.ext_iff]

theorem Heap.getObject_eq_ok {heap : Heap} {ref : Number} {site : Text} {object : Text × Table Text Value} :
    heap.getObject ref site = .ok object ↔ heap.get? ref = some (.object object.1 object.2) := by
  unfold Heap.getObject Heap.get
  cases heap.get? ref with
  | none => simp [bind, Except.bind]
  | some v => cases v <;> simp [bind, Except.bind, Prod.ext_iff]

/-! ## Actions that complete -/

namespace Exec

variable {α : Type} {act act' : Activation}

theorem pure_eq_ok {a b : α} : (pure a : Exec α) act = .ok b act' ↔ a = b ∧ act = act' := by
  change EStateM.Result.ok a act = .ok b act' ↔ _
  simp

theorem get_eq_ok {act'' : Activation} : (get : Exec Activation) act = .ok act' act'' ↔ act = act' ∧ act = act'' := by
  change EStateM.Result.ok act act = .ok act' act'' ↔ _
  simp

theorem modify_eq_ok {f : Activation → Activation} {u : PUnit} :
    (modify f : Exec PUnit) act = .ok u act' ↔ f act = act' := by
  change EStateM.Result.ok _ (f act) = .ok u act' ↔ _
  simp

theorem raise_ne_ok {fault : Fault} {a : α} : (raise fault : Exec α) act ≠ .ok a act' := by
  intro h
  cases h

theorem halt_ne_ok {outcome : Outcome} {a : α} : (halt outcome : Exec α) act ≠ .ok a act' := by
  intro h
  cases h

theorem orRaise_eq_ok {x : Except Fault α} {a : α} : orRaise x act = .ok a act' ↔ x = .ok a ∧ act = act' := by
  cases x with
  | ok b => simp [orRaise, pure_eq_ok]
  | error fault => simp [orRaise, raise_ne_ok]

theorem orHalt_eq_ok {outcome : Outcome} {x : Option α} {a : α} :
    orHalt outcome x act = .ok a act' ↔ x = some a ∧ act = act' := by
  cases x with
  | some b => simp [orHalt, pure_eq_ok]
  | none => simp [orHalt, halt_ne_ok]

theorem onStore_eq_ok {action : EStateM Fault Store α} {a : α} :
    onStore action act = .ok a act' ↔ ∃ store, action act.store = .ok a store ∧ { act with store } = act' := by
  unfold onStore
  cases action act.store with
  | ok b store => grind
  | error fault store => simp

theorem site_eq_ok {t : Text} : site act = .ok t act' ↔ act.frame.pc.text = t ∧ act = act' := by
  change EStateM.Result.ok _ act = .ok t act' ↔ _
  simp

theorem push_eq_ok {v : Value} {u : PUnit} :
    push v act = .ok u act' ↔ act.withStack (v :: act.frame.stack) = act' := modify_eq_ok

/-- Popping in one equation. -/
theorem pop_apply (act : Activation) :
    pop act = match act.frame.stack with
      | [] => .error (.fault (.malformed .stackUnderflow)) act
      | v :: rest => .ok v (act.withStack rest) := by
  rcases act with ⟨⟨pc, locals, stack⟩, heap, statics, store⟩
  cases stack <;> rfl

theorem pop_eq_ok {v : Value} :
    pop act = .ok v act' ↔ ∃ rest, act.frame.stack = v :: rest ∧ act.withStack rest = act' := by
  rw [pop_apply]
  cases act.frame.stack with
  | nil => simp
  | cons w rest => grind

theorem expectInt_eq_ok {v : Value} {n : Int} :
    expectInt v act = .ok n act' ↔ v.toInt? = some n ∧ act = act' := by
  unfold expectInt
  cases v.toInt? with
  | some m => simp [pure_eq_ok]
  | none => simp [bind_eq_ok, raise_ne_ok]

theorem expectReference_eq_ok {v : Value} {ref : Option Number} :
    expectReference v act = .ok ref act' ↔ v = .reference ref ∧ act = act' := by
  cases v with
  | reference ref' => simp [expectReference, pure_eq_ok]
  | _ => simp [expectReference, bind_eq_ok, raise_ne_ok]

theorem popInt_eq_ok {n : Int} :
    popInt act = .ok n act' ↔
      ∃ v rest, act.frame.stack = v :: rest ∧ v.toInt? = some n ∧ act.withStack rest = act' := by
  simp only [popInt, bind_eq_ok, pop_eq_ok, expectInt_eq_ok]
  grind

theorem popReference_eq_ok {ref : Option Number} :
    popReference act = .ok ref act' ↔
      ∃ rest, act.frame.stack = .reference ref :: rest ∧ act.withStack rest = act' := by
  simp only [popReference, bind_eq_ok, pop_eq_ok, expectReference_eq_ok]
  grind

theorem popKey_eq_ok {key : Number} :
    popKey act = .ok key act' ↔
      ∃ rest, act.frame.stack = .reference (some key) :: rest ∧ act.withStack rest = act' := by
  simp only [popKey, bind_eq_ok, popReference_eq_ok, orHalt_eq_ok]
  grind

theorem expectCategory_eq_ok {category : Category} {v w : Value} :
    expectCategory category v act = .ok w act' ↔ fits category v = true ∧ v = w ∧ act = act' := by
  unfold expectCategory
  split
  · rename_i h
    simp [pure_eq_ok, h]
  · rename_i h
    simp [bind_eq_ok, raise_ne_ok, h]

/-- The arguments come off the stack in the order in which they were pushed. -/
theorem popArguments_eq_ok {count : Nat} {args all : List Value} :
    popArguments count args act = .ok all act' ↔
      ∃ taken rest, act.frame.stack = taken ++ rest ∧ taken.length = count ∧ all = taken.reverse ++ args ∧
        act.withStack rest = act' := by
  -- What is popped goes in front of what was popped before it.
  induction count generalizing act args with
  | zero =>
    simp only [popArguments, pure_eq_ok, List.length_eq_zero_iff]
    constructor
    · rintro ⟨rfl, rfl⟩
      exact ⟨[], act.frame.stack, rfl, rfl, rfl, rfl⟩
    · rintro ⟨_, rest, hstack, rfl, rfl, rfl⟩
      exact ⟨rfl, by rw [← (show act.frame.stack = rest from hstack)]; rfl⟩
  | succ count ih =>
    simp only [popArguments, bind_eq_ok, pop_eq_ok, ih]
    constructor
    · rintro ⟨v, _, ⟨rest, hstack, rfl⟩, taken, rest', hrest, rfl, rfl, rfl⟩
      obtain rfl : rest = taken ++ rest' := hrest
      exact ⟨v :: taken, rest', hstack, rfl, by simp, rfl⟩
    · rintro ⟨taken, rest, hstack, hlen, rfl, rfl⟩
      obtain ⟨v, taken, rfl⟩ := List.exists_cons_of_length_eq_add_one hlen
      exact ⟨v, _, ⟨taken ++ rest, hstack, rfl⟩, taken, rest, rfl, by simpa using hlen, by simp, rfl⟩

/-! ### Looking at operands -/

theorem comparand_eq_ok {condition : Condition} {v : Value} {x : Option Number} :
    comparand condition v act = .ok x act' ↔ Compares condition v x ∧ act = act' := by
  -- All values but references are compared by their numbers.
  have hscalar : ∀ w : Value, (∀ ref, w ≠ .reference ref) →
      ((do return some (.int (← expectInt w)) : Exec (Option Number)) act = .ok x act' ↔
        Compares condition w x ∧ act = act') := by
    intro w hw
    simp only [bind_eq_ok, expectInt_eq_ok, pure_eq_ok]
    constructor
    · rintro ⟨n, _, ⟨hn, rfl⟩, rfl, rfl⟩
      exact ⟨.scalar hn, rfl⟩
    · rintro ⟨hc, rfl⟩
      cases hc with
      | scalar hn => exact ⟨_, _, ⟨hn, rfl⟩, rfl, rfl⟩
      | reference ref => exact absurd rfl (hw _)
  cases v with
  | reference ref =>
    simp only [comparand]
    split
    · rename_i hordering
      simp only [bind_eq_ok, raise_ne_ok, and_false, exists_false, false_iff]
      rintro ⟨hc, -⟩
      cases hc with
      | scalar hn => cases hn
      | reference _ h => simp [h] at hordering
    · rename_i hordering
      simp only [pure_eq_ok]
      constructor
      · rintro ⟨rfl, rfl⟩
        exact ⟨.reference _ (by simpa using hordering), rfl⟩
      · rintro ⟨hc, rfl⟩
        cases hc with
        | scalar hn => cases hn
        | reference _ h => exact ⟨rfl, rfl⟩
  | _ => exact hscalar _ (by simp)

theorem decideJump_eq_ok {condition : Condition} {left right : Option Number} {target : Int} {control : Control} :
    decideJump condition left right target act = .ok control act' ↔
      ∃ taken, condition.compare left right act.frame.pc.text = .ok taken ∧ control = branchTo taken target ∧
        act = act' := by
  simp only [decideJump, bind_eq_ok, site_eq_ok, orRaise_eq_ok]
  constructor
  · rintro ⟨_, _, ⟨rfl, rfl⟩, taken, _, ⟨hcompare, rfl⟩, h⟩
    refine ⟨taken, hcompare, ?_⟩
    cases taken <;> (obtain ⟨rfl, rfl⟩ := pure_eq_ok.1 h; exact ⟨rfl, rfl⟩)
  · rintro ⟨taken, hcompare, rfl, rfl⟩
    refine ⟨_, _, ⟨rfl, rfl⟩, taken, _, ⟨hcompare, rfl⟩, ?_⟩
    cases taken <;> rfl

theorem arrayOf_eq_ok {ref : Number} {array : Ty × List Value} :
    arrayOf ref act = .ok array act' ↔
      act.heap.get? ref = some (.array array.1 array.2) ∧ act = act' := by
  simp only [arrayOf, bind_eq_ok, get_eq_ok, site_eq_ok, orRaise_eq_ok, Heap.getArray_eq_ok]
  grind

theorem objectOf_eq_ok {ref : Number} {object : Text × Table Text Value} :
    objectOf ref act = .ok object act' ↔
      act.heap.get? ref = some (.object object.1 object.2) ∧ act = act' := by
  simp only [objectOf, bind_eq_ok, get_eq_ok, site_eq_ok, orRaise_eq_ok, Heap.getObject_eq_ok]
  grind

theorem placeIn_eq_ok {items : List Value} {index : Int} {place : Nat} :
    placeIn items index act = .ok place act' ↔
      (0 ≤ index ∧ index.toNat < items.length ∧ place = index.toNat) ∧ act = act' := by
  unfold placeIn
  split
  · rename_i h
    simp only [pure_eq_ok]
    grind
  · rename_i h
    simp only [halt_ne_ok, false_iff]
    grind

theorem coerce_eq_ok {element : Ty} {v w : Value} :
    coerce element v act = .ok w act' ↔ Coerces element v w ∧ act = act' := by
  unfold coerce
  split
  · rename_i p v
    simp only [bind_eq_ok, expectInt_eq_ok, pure_eq_ok]
    constructor
    · rintro ⟨n, _, ⟨hn, rfl⟩, rfl, rfl⟩
      exact ⟨.scalar hn, rfl⟩
    · rintro ⟨hc, rfl⟩
      cases hc with
      | scalar hn => exact ⟨_, _, ⟨hn, rfl⟩, rfl, rfl⟩
      | reference ref href => cases href
  · rename_i ref hprimitive
    have href : element.isReference := by
      cases element with
      | primitive p => exact absurd rfl (hprimitive p)
      | _ => rfl
    simp only [pure_eq_ok]
    constructor
    · rintro ⟨rfl, rfl⟩
      exact ⟨.reference ref href, rfl⟩
    · rintro ⟨hc, rfl⟩
      cases hc with
      | scalar hn => cases hn
      | reference _ _ => exact ⟨rfl, rfl⟩
  · rename_i hprimitive hreference
    simp only [bind_eq_ok, raise_ne_ok, and_false, exists_false, false_iff]
    rintro ⟨hc, -⟩
    cases hc with
    | scalar hn => exact hprimitive _ rfl
    | reference ref href => exact hreference _ rfl

/-! ## Instructions that complete -/

theorem effect_newArray {element : Ty} {control : Control} (h : newArray element act = .ok control act') :
    Effect act (.newArray element) control act' := by
  obtain ⟨n, _, hlength, h⟩ := bind_eq_ok.1 h
  obtain ⟨v, rest, hstack, hn, rfl⟩ := popInt_eq_ok.1 hlength
  split at h
  · exact absurd h halt_ne_ok
  · rename_i hneg
    cases h
    exact .newArray hstack hn (Int.not_lt.1 hneg)

theorem effect_arrayLoad {type : Ty} {control : Control} (h : arrayLoad act = .ok control act') :
    Effect act (.arrayLoad type) control act' := by
  simp only [arrayLoad, bind_eq_ok, popInt_eq_ok, popKey_eq_ok, arrayOf_eq_ok, placeIn_eq_ok, orHalt_eq_ok,
    push_eq_ok, pure_eq_ok] at h
  obtain ⟨n, _, ⟨index, _, hstack, hn, rfl⟩, ref, _, ⟨rest, hrest, rfl⟩, ⟨element, items⟩, _, ⟨harray, rfl⟩,
    place, _, ⟨⟨hpos, hlt, rfl⟩, rfl⟩, v, _, ⟨hv, rfl⟩, _, _, rfl, rfl, rfl⟩ := h
  exact .arrayLoad (hstack.trans (congrArg _ hrest)) hn harray hpos hv

theorem effect_arrayStore {type : Ty} {control : Control} (h : arrayStore act = .ok control act') :
    Effect act (.arrayStore type) control act' := by
  simp only [arrayStore, bind_eq_ok, pop_eq_ok, popInt_eq_ok, popKey_eq_ok, arrayOf_eq_ok, placeIn_eq_ok,
    coerce_eq_ok, modify_eq_ok, pure_eq_ok] at h
  obtain ⟨v, _, ⟨_, hstack, rfl⟩, n, _, ⟨index, _, hindex, hn, rfl⟩, ref, _, ⟨rest, hrest, rfl⟩,
    ⟨element, items⟩, _, ⟨harray, rfl⟩, place, _, ⟨⟨hpos, hlt, rfl⟩, rfl⟩, w, _, ⟨hw, rfl⟩, _, _, rfl, rfl, rfl⟩ := h
  have hoperands : act.frame.stack = v :: index :: .reference (some ref) :: rest := by
    rw [hstack]
    exact congrArg _ (hindex.trans (congrArg _ hrest))
  exact .arrayStore hoperands hn harray hpos hlt hw

theorem effect_newObject {className : Text} {control : Control} (h : newObject className act = .ok control act') :
    Effect act (.new className) control act' := by
  unfold newObject at h
  split at h
  · exact absurd h halt_ne_ok
  · rename_i hclass
    obtain ⟨info, _, hinfo, h⟩ := bind_eq_ok.1 h
    obtain ⟨store, hstore, rfl⟩ := onStore_eq_ok.1 hinfo
    cases h
    exact .new hclass hstore

theorem effect_getStatic {field : FieldRef} {control : Control} (h : getStatic field act = .ok control act') :
    Effect act (.get true field) control act' := by
  simp only [getStatic, staticOf, bind_eq_ok, get_eq_ok, push_eq_ok, pure_eq_ok] at h
  obtain ⟨v, _, ⟨_, _, ⟨rfl, rfl⟩, hv⟩, _, _, rfl, rfl, rfl⟩ := h
  cases hget : Table.get? field.text act.statics with
  | some w =>
    rw [hget] at hv
    obtain ⟨rfl, rfl⟩ := pure_eq_ok.1 hv
    exact .getWritten hget
  | none =>
    rw [hget] at hv
    obtain ⟨store, hstore, rfl⟩ := onStore_eq_ok.1 hv
    exact .getInitial hget hstore

theorem effect_getField {field : FieldRef} {control : Control} (h : getField field act = .ok control act') :
    Effect act (.get false field) control act' := by
  simp only [getField, bind_eq_ok, popKey_eq_ok, objectOf_eq_ok, orRaise_eq_ok, push_eq_ok, pure_eq_ok] at h
  obtain ⟨ref, _, ⟨rest, hstack, rfl⟩, ⟨className, fields⟩, _, ⟨hobject, rfl⟩, v, _, ⟨hv, rfl⟩,
    _, _, rfl, rfl, rfl⟩ := h
  refine .getField hstack hobject ?_
  simp only [fieldOf] at hv
  cases hget : Table.get? field.name fields with
  | some w => rw [hget] at hv; cases hv; rfl
  | none => rw [hget] at hv; cases hv

theorem effect_putField {field : FieldRef} {control : Control} (h : putField field act = .ok control act') :
    Effect act (.put false field) control act' := by
  simp only [putField, bind_eq_ok, pop_eq_ok, popKey_eq_ok, objectOf_eq_ok, modify_eq_ok, pure_eq_ok] at h
  obtain ⟨v, _, ⟨_, hstack, rfl⟩, ref, _, ⟨rest, hrest, rfl⟩, ⟨className, fields⟩, _, ⟨hobject, rfl⟩,
    _, _, rfl, rfl, rfl⟩ := h
  exact .putField (hstack.trans (congrArg _ hrest)) hobject

theorem effect_invoke {access : Access} {method : MethodId} {control : Control}
    (h : invoke access method act = .ok control act') : Effect act (.invoke access method) control act' := by
  unfold invoke at h
  split at h
  · rename_i hroot
    obtain ⟨rfl, hroot⟩ : access = .special ∧ method.isObjectConstructor = true := by simpa using hroot
    simp only [skipConstructor, bind_eq_ok, popReference_eq_ok, pure_eq_ok] at h
    obtain ⟨ref, _, ⟨rest, hstack, rfl⟩, rfl, rfl⟩ := h
    exact .skipConstructor hroot hstack
  · rename_i hroot
    have hcalls : ¬(access = .special ∧ method.isObjectConstructor = true) := by simpa using hroot
    split at h
    · rename_i hstatic
      simp only [callStatic, bind_eq_ok, popArguments_eq_ok, pure_eq_ok] at h
      obtain ⟨_, _, ⟨taken, rest, hstack, hlen, rfl, rfl⟩, rfl, rfl⟩ := h
      refine .call hcalls (by simpa using hstack) ?_ (absurd hstatic)
      simp [argumentCount, hstatic, hlen]
    · rename_i hstatic
      simp only [callOn, bind_eq_ok, popArguments_eq_ok, expectReference_eq_ok, orHalt_eq_ok, pure_eq_ok] at h
      obtain ⟨_, _, ⟨taken, rest, hstack, hlen, rfl, rfl⟩, _, _, ⟨href, rfl⟩, key, _, ⟨rfl, rfl⟩, rfl, rfl⟩ := h
      refine .call hcalls (by simpa using hstack) ?_ fun _ => ⟨key, ?_⟩
      · simp [argumentCount, hstatic, hlen]
      -- The receiver was pushed first: it is the head of the arguments.
      · cases hargs : taken.reverse ++ [] with
        | nil => rw [hargs] at href; cases href
        | cons receiver args => rw [hargs] at href; rw [← href]; rfl

theorem effect_leave {category : Option Category} {control : Control} (h : leave category act = .ok control act') :
    Effect act (.return category) control act' := by
  cases category with
  | none => cases h; exact .leaveNothing
  | some category =>
    simp only [leave, bind_eq_ok, pop_eq_ok, expectCategory_eq_ok, pure_eq_ok] at h
    obtain ⟨v, _, ⟨rest, hstack, rfl⟩, _, _, ⟨hfits, rfl, rfl⟩, rfl, rfl⟩ := h
    exact .leave hstack hfits

theorem effect_cast {target : CastTarget} {control : Control} (h : cast target act = .ok control act') :
    Effect act (.cast target) control act' := by
  simp only [cast, bind_eq_ok, pop_eq_ok, expectInt_eq_ok] at h
  obtain ⟨v, _, ⟨rest, hstack, rfl⟩, n, _, ⟨hn, rfl⟩, h⟩ := h
  split at h
  · simp [bind_eq_ok, raise_ne_ok] at h
  · rename_i hboolean
    cases h
    exact .cast hstack hn hboolean

theorem load_eq_ok {slot : Number} {v : Value} {frame : Frame} :
    frame.load slot = .ok v ↔ Table.get? slot frame.locals = some v := by
  unfold Frame.load
  cases Table.get? slot frame.locals <;> simp

theorem peek_eq_ok {stack : OperandStack} {v : Value} :
    OperandStack.peek stack = .ok v ↔ ∃ rest, stack = v :: rest := by
  cases stack <;> simp [OperandStack.peek]

/-- An instruction that completes has its effect. -/
theorem effect_of_execute {instruction : Instruction} {control : Control}
    (h : execute instruction act = .ok control act') : Effect act instruction control act' := by
  cases instruction with
  | push v => cases h; exact .push v
  | load category slot =>
    simp only [execute, bind_eq_ok, get_eq_ok, orRaise_eq_ok, load_eq_ok, expectCategory_eq_ok, push_eq_ok,
      pure_eq_ok] at h
    obtain ⟨_, _, ⟨rfl, rfl⟩, v, _, ⟨hload, rfl⟩, _, _, ⟨hfits, rfl, rfl⟩, _, _, rfl, rfl, rfl⟩ := h
    exact .load hload hfits
  | store category slot =>
    simp only [execute, bind_eq_ok, pop_eq_ok, expectCategory_eq_ok, modify_eq_ok, pure_eq_ok] at h
    obtain ⟨v, _, ⟨rest, hstack, rfl⟩, _, _, ⟨hfits, rfl, rfl⟩, _, _, rfl, rfl, rfl⟩ := h
    exact .store hstack hfits
  | binary operator =>
    simp only [execute, binary, bind_eq_ok, popInt_eq_ok, orHalt_eq_ok, push_eq_ok, pure_eq_ok] at h
    obtain ⟨b, _, ⟨right, _, hstack, hb, rfl⟩, a, _, ⟨left, rest, hrest, ha, rfl⟩, n, _, ⟨hn, rfl⟩,
      _, _, rfl, rfl, rfl⟩ := h
    exact .binary (hstack.trans (congrArg _ hrest)) ha hb hn
  | negate =>
    simp only [execute, bind_eq_ok, popInt_eq_ok, push_eq_ok, pure_eq_ok] at h
    obtain ⟨n, _, ⟨v, rest, hstack, hn, rfl⟩, _, _, rfl, rfl, rfl⟩ := h
    exact .negate hstack hn
  | incr slot amount =>
    simp only [execute, incr, bind_eq_ok, get_eq_ok, orRaise_eq_ok, load_eq_ok, expectInt_eq_ok, modify_eq_ok,
      pure_eq_ok] at h
    obtain ⟨_, _, ⟨rfl, rfl⟩, v, _, ⟨hload, rfl⟩, n, _, ⟨hn, rfl⟩, _, _, rfl, rfl, rfl⟩ := h
    exact .incr hload hn
  | dup =>
    simp only [execute, bind_eq_ok, get_eq_ok, orRaise_eq_ok, peek_eq_ok, push_eq_ok, pure_eq_ok] at h
    obtain ⟨_, _, ⟨rfl, rfl⟩, v, _, ⟨⟨rest, hstack⟩, rfl⟩, _, _, rfl, rfl, rfl⟩ := h
    rw [hstack]
    exact .dup hstack
  | pop =>
    simp only [execute, bind_eq_ok, pop_eq_ok, pure_eq_ok] at h
    obtain ⟨v, _, ⟨rest, hstack, rfl⟩, rfl, rfl⟩ := h
    exact .pop hstack
  | branch condition target =>
    simp only [execute, branch, bind_eq_ok, pop_eq_ok, comparand_eq_ok, decideJump_eq_ok] at h
    obtain ⟨right, _, ⟨_, hstack, rfl⟩, b, _, ⟨hb, rfl⟩, left, _, ⟨rest, hrest, rfl⟩, a, _, ⟨ha, rfl⟩, taken,
      hcompare, rfl, rfl⟩ := h
    exact .branch (hstack.trans (congrArg _ hrest)) ha hb hcompare rfl
  | branchZero condition target =>
    simp only [execute, branchZero, bind_eq_ok, pop_eq_ok, comparand_eq_ok, decideJump_eq_ok] at h
    obtain ⟨v, _, ⟨rest, hstack, rfl⟩, a, _, ⟨ha, rfl⟩, taken, hcompare, rfl, rfl⟩ := h
    refine .branchZero hstack ha ?_ rfl
    -- A reference is compared with null, all else with zero.
    cases v <;> exact hcompare
  | goto target => cases h; exact .goto target
  | get isStatic field =>
    cases isStatic
    · exact effect_getField h
    · exact effect_getStatic h
  | put isStatic field =>
    cases isStatic
    · exact effect_putField h
    · simp only [execute, putStatic, if_true, bind_eq_ok, pop_eq_ok, modify_eq_ok, pure_eq_ok] at h
      obtain ⟨v, _, ⟨rest, hstack, rfl⟩, _, _, rfl, rfl, rfl⟩ := h
      exact .putStatic hstack
  | new className => exact effect_newObject h
  | newArray element => exact effect_newArray h
  | arrayLoad element => exact effect_arrayLoad h
  | arrayStore element => exact effect_arrayStore h
  | arrayLength =>
    simp only [execute, arrayLength, bind_eq_ok, popKey_eq_ok, arrayOf_eq_ok, push_eq_ok, pure_eq_ok] at h
    obtain ⟨ref, _, ⟨rest, hstack, rfl⟩, ⟨element, items⟩, _, ⟨harray, rfl⟩, _, _, rfl, rfl, rfl⟩ := h
    exact .arrayLength hstack harray
  | invoke access method => exact effect_invoke h
  | «return» category => exact effect_leave h
  | cast target => exact effect_cast h

end Exec

end Bytecode
