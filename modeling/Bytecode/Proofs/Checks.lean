import Bytecode.Proofs.Effect
/-!
# Instructions check before they write

Every instruction first takes its operands and makes its checks, and then at
most writes once, which cannot fail. `Checks` and `ChecksThenWrites` say this of
the way an action is built, and `execute_checks` says it of all instructions.
What all instructions have in common because of it is then proved by one
induction over how actions are built and needs no look at any of them.
-/
namespace Bytecode

/-- The class that an instruction may look up. -/
def Instruction.class? : Instruction → Option Text
  | .get true field => some field.className
  | .new className => some className
  | _ => none

namespace Exec

/-- Actions that take operands, look at the activation and the store, and stop,
but never as a finished program. No action but a lookup sees the store, and all
classes that are looked up have the property `N`. -/
inductive Checks (N : Text → Prop) : {α : Type} → Exec α → Prop
  | pure {α : Type} (a : α) : Checks N (pure a)
  | raise {α : Type} (fault : Fault) : Checks N (raise fault : Exec α)
  | halt {α : Type} {outcome : Outcome} : outcome ≠ .ok → Checks N (halt outcome : Exec α)
  | pop : Checks N pop
  | freshFields (className : Text) : N className →
      Checks N (do return Exec.freshFields (← onStore (Store.classInfo className)) : Exec (Table Text Value))
  | staticValue (field : FieldRef) : N field.className → Checks N (onStore (Store.staticValue field))
  | get {α : Type} {f : Activation → Exec α} :
      (∀ act store, f { act with store } = f act) → (∀ act, Checks N (f act)) → Checks N (get >>= f)
  | bind {α β : Type} {x : Exec α} {f : α → Exec β} :
      Checks N x → (∀ a, Checks N (f a)) → Checks N (x >>= f)

/-- Instructions that make checks and then write at most once. A write does not
see the store either. -/
inductive ChecksThenWrites (N : Text → Prop) : Exec Control → Prop
  | checks {x : Exec Control} : Checks N x → ChecksThenWrites N x
  | write {update : Activation → Activation} (control : Control) :
      (∀ act store, update { act with store } = { update act with store }) →
      ChecksThenWrites N (do modify update; return control)
  | get {f : Activation → Exec Control} :
      (∀ act store, f { act with store } = f act) → (∀ act, ChecksThenWrites N (f act)) →
      ChecksThenWrites N (get >>= f)
  | bind {α : Type} {x : Exec α} {f : α → Exec Control} :
      Checks N x → (∀ a, ChecksThenWrites N (f a)) → ChecksThenWrites N (x >>= f)

variable {N : Text → Prop} {α : Type}

/-! ## Stopping -/

theorem checks_orRaise (x : Except Fault α) : Checks N (orRaise x) := by
  cases x with
  | ok a => exact .pure a
  | error fault => exact .raise fault

theorem checks_orHalt {outcome : Outcome} (ho : outcome ≠ .ok) (x : Option α) : Checks N (orHalt outcome x) := by
  cases x with
  | some a => exact .pure a
  | none => exact .halt ho

theorem checks_site : Checks N site := .get (fun _ _ => rfl) fun act => .pure act.frame.pc.text

/-! ## Taking operands -/

theorem checks_expectInt (v : Value) : Checks N (expectInt v) := by
  unfold expectInt
  cases v.toInt? with
  | some n => exact .pure n
  | none => exact .bind checks_site fun _ => .raise _

theorem checks_expectReference (v : Value) : Checks N (expectReference v) := by
  cases v with
  | reference ref => exact .pure ref
  | _ => exact .bind checks_site fun _ => .raise _

theorem checks_popInt : Checks N popInt := .bind .pop checks_expectInt

theorem checks_popReference : Checks N popReference := .bind .pop checks_expectReference

theorem checks_popKey : Checks N popKey := .bind checks_popReference fun ref => checks_orHalt (by decide) ref

theorem checks_expectCategory (category : Category) (v : Value) : Checks N (expectCategory category v) := by
  unfold expectCategory
  split
  · exact .pure v
  · exact .bind checks_site fun _ => .raise _

theorem checks_popArguments (count : Nat) (args : List Value) : Checks N (popArguments count args) := by
  induction count generalizing args with
  | zero => exact .pure args
  | succ count ih => exact .bind .pop fun v => ih (v :: args)

/-! ## Looking at operands -/

theorem checks_comparand (condition : Condition) (v : Value) : Checks N (comparand condition v) := by
  have hscalar : ∀ w, Checks N (do return some (.int (← expectInt w)) : Exec (Option Number)) := by
    intro w
    exact .bind (checks_expectInt w) fun n => .pure _
  cases v with
  | reference ref =>
    simp only [comparand]
    split
    · exact .bind checks_site fun _ => .raise _
    · exact .pure ref
  | _ => exact hscalar _

theorem checks_decideJump (condition : Condition) (left right : Option Number) (target : Int) :
    Checks N (decideJump condition left right target) := by
  refine .bind checks_site fun site => .bind (checks_orRaise _) fun taken => ?_
  cases taken <;> exact .pure _

theorem checks_arrayOf (ref : Number) : Checks N (arrayOf ref) :=
  .get (fun _ _ => rfl) fun _ => .bind checks_site fun _ => checks_orRaise _

theorem checks_objectOf (ref : Number) : Checks N (objectOf ref) :=
  .get (fun _ _ => rfl) fun _ => .bind checks_site fun _ => checks_orRaise _

theorem checks_placeIn (items : List Value) (index : Int) : Checks N (placeIn items index) := by
  unfold placeIn
  split
  · exact .pure _
  · exact .halt (by decide)

theorem checks_coerce (element : Ty) (v : Value) : Checks N (coerce element v) := by
  unfold coerce
  split
  · exact .bind (checks_expectInt _) fun n => .pure _
  · exact .pure _
  · exact .bind checks_site fun _ => .raise _

theorem checks_staticOf (field : FieldRef) (h : N field.className) : Checks N (staticOf field) := by
  refine .get (fun _ _ => rfl) fun act => ?_
  cases Table.get? field.text act.statics with
  | some v => exact .pure v
  | none => exact .staticValue field h

/-! ## Writes -/

theorem writes_push (v : Value) (control : Control) : ChecksThenWrites N (do push v; return control) :=
  .write control fun _ _ => rfl

/-- Allocating and pushing the reference is one write. -/
theorem writes_allocate (v : Value) (control : Control) : ChecksThenWrites N (do allocate v; return control) := by
  let update (act : Activation) : Activation :=
    { act.withStack (.reference (some (.int act.heap.size)) :: act.frame.stack) with
      heap := act.heap.allocate v }
  have hwrite : (do allocate v; return control : Exec Control) = (do modify update; return control) := rfl
  rw [hwrite]
  exact .write control fun _ _ => rfl

/-! ## Instructions -/

theorem writes_branch (condition : Condition) (target : Int) : ChecksThenWrites N (branch condition target) := by
  refine .checks (.bind .pop fun v => .bind (checks_comparand condition v) fun right => ?_)
  refine .bind .pop fun w => .bind (checks_comparand condition w) fun left => ?_
  exact checks_decideJump condition left right target

theorem writes_branchZero (condition : Condition) (target : Int) :
    ChecksThenWrites N (branchZero condition target) := by
  refine .checks (.bind .pop fun v => .bind (checks_comparand condition v) fun left => ?_)
  exact checks_decideJump condition left _ target

theorem writes_newArray (element : Ty) : ChecksThenWrites N (newArray element) := by
  refine .bind checks_popInt fun length => ?_
  split
  · exact .checks (.halt (by decide))
  · exact writes_allocate _ _

theorem writes_arrayLoad : ChecksThenWrites N arrayLoad := by
  refine .bind checks_popInt fun index => .bind checks_popKey fun ref => .bind (checks_arrayOf ref) fun array => ?_
  refine .bind (checks_placeIn array.2 index) fun place => .bind (checks_orHalt (by decide) _) fun v => ?_
  exact writes_push v _

theorem writes_arrayStore : ChecksThenWrites N arrayStore := by
  refine .bind .pop fun v => .bind checks_popInt fun index => .bind checks_popKey fun ref => ?_
  refine .bind (checks_arrayOf ref) fun array => .bind (checks_placeIn array.2 index) fun place => ?_
  -- The array is written last, after its place and the value are found fit.
  exact .bind (checks_coerce array.1 v) fun w => .write _ fun _ _ => rfl

theorem writes_arrayLength : ChecksThenWrites N arrayLength :=
  .bind checks_popKey fun ref => .bind (checks_arrayOf ref) fun _ => writes_push _ _

theorem writes_newObject (className : Text) (h : N className) : ChecksThenWrites N (newObject className) := by
  unfold newObject
  split
  · exact .checks (.halt (by decide))
  · -- Only the fields of the fresh object depend on the declaration, not its name.
    have hfields : (do
          let info ← onStore (Store.classInfo className)
          allocate (.object className (freshFields info))
          return .next : Exec Control) =
        (do return freshFields (← onStore (Store.classInfo className))) >>= fun fields => do
          allocate (.object className fields)
          return .next := by
      simp only [bind_assoc, pure_bind]
    rw [hfields]
    exact .bind (.freshFields className h) fun fields => writes_allocate _ _

theorem writes_getStatic (field : FieldRef) (h : N field.className) : ChecksThenWrites N (getStatic field) :=
  .bind (checks_staticOf field h) fun v => writes_push v _

theorem writes_getField (field : FieldRef) : ChecksThenWrites N (getField field) := by
  refine .bind checks_popKey fun ref => .bind (checks_objectOf ref) fun object => ?_
  exact .bind (checks_orRaise _) fun v => writes_push v _

theorem writes_putStatic (field : FieldRef) : ChecksThenWrites N (putStatic field) :=
  .bind .pop fun _ => .write _ fun _ _ => rfl

theorem writes_putField (field : FieldRef) : ChecksThenWrites N (putField field) := by
  refine .bind .pop fun v => .bind checks_popKey fun ref => .bind (checks_objectOf ref) fun object => ?_
  exact .write _ fun _ _ => rfl

theorem writes_invoke (access : Access) (method : MethodId) : ChecksThenWrites N (invoke access method) := by
  unfold invoke
  split
  · exact .checks (.bind checks_popReference fun _ => .pure _)
  · split
    -- A call writes nothing itself: its frame is put on the call stack by the control.
    · exact .checks (.bind (checks_popArguments _ []) fun args => .pure _)
    · refine .checks (.bind (checks_popArguments _ []) fun args => ?_)
      refine .bind (checks_expectReference _) fun ref => .bind (checks_orHalt (by decide) ref) fun _ => ?_
      exact .pure _

theorem writes_leave (category : Option Category) : ChecksThenWrites N (leave category) := by
  cases category with
  | none => exact .checks (.pure _)
  | some category => exact .checks (.bind .pop fun v => .bind (checks_expectCategory category v) fun _ => .pure _)

theorem writes_binary (operator : Operator) : ChecksThenWrites N (binary operator) := by
  refine .bind checks_popInt fun right => .bind checks_popInt fun left => ?_
  exact .bind (checks_orHalt (by decide) _) fun n => writes_push _ _

theorem writes_incr (slot amount : Int) : ChecksThenWrites N (incr slot amount) := by
  refine .get (fun _ _ => rfl) fun act => .bind (checks_orRaise _) fun v => .bind (checks_expectInt v) fun n => ?_
  exact .write _ fun _ _ => rfl

theorem writes_cast (target : CastTarget) : ChecksThenWrites N (cast target) := by
  refine .bind .pop fun v => .bind (checks_expectInt v) fun n => ?_
  split
  · exact .checks (.bind checks_site fun _ => .raise _)
  · exact writes_push _ _

/-- Every instruction makes its checks before it writes, and looks up no class but the one that it names. -/
theorem execute_checks (instruction : Instruction) :
    ChecksThenWrites (fun className => instruction.class? = some className) (execute instruction) := by
  cases instruction with
  | push v => exact writes_push v _
  | load category slot =>
    refine .get (fun _ _ => rfl) fun act => .bind (checks_orRaise _) fun v => ?_
    exact .bind (checks_expectCategory category v) fun w => writes_push w _
  | store category slot =>
    exact .bind .pop fun v => .bind (checks_expectCategory category v) fun w => .write _ fun _ _ => rfl
  | binary operator => exact writes_binary operator
  | negate => exact .bind checks_popInt fun n => writes_push _ _
  | incr slot amount => exact writes_incr slot amount
  | dup => exact .get (fun _ _ => rfl) fun act => .bind (checks_orRaise _) fun v => writes_push v _
  | pop => exact .checks (.bind .pop fun _ => .pure _)
  | branch condition target => exact writes_branch condition target
  | branchZero condition target => exact writes_branchZero condition target
  | goto target => exact .checks (.pure _)
  | get isStatic field =>
    cases isStatic
    · exact writes_getField field
    · exact writes_getStatic field rfl
  | put isStatic field =>
    cases isStatic
    · exact writes_putField field
    · exact writes_putStatic field
  | new className => exact writes_newObject className rfl
  | newArray element => exact writes_newArray element
  | arrayLoad element => exact writes_arrayLoad
  | arrayStore element => exact writes_arrayStore
  | arrayLength => exact writes_arrayLength
  | invoke access method => exact writes_invoke access method
  | «return» category => exact writes_leave category
  | cast target => exact writes_cast target

end Exec

end Bytecode
