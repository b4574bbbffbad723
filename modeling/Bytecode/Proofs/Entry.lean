import Bytecode.Proofs.Descriptors
import Bytecode.Proofs.Memory
import Bytecode.Proofs.Printing
import Mathlib
/-!
# Where a method begins

Arguments that pass the check put a method into a state of its declared types:
scalars stand in their parameters' slots, and every array is on the heap under
the next key, in the order of the arguments (`State.Entered`). Slots are counted
over all arguments and keys over the arrays among them. The induction is on the
arguments, over any heap that is there already, since the later ones are bound in
what the earlier ones left. `begins_as_declared` also says which methods can be begun at all.
-/
namespace Bytecode

/-- The types whose values an argument text can list. -/
inductive Ty.Listed : Ty → Prop
  | scalar {type : Primitive} : type ∈ [Primitive.int, .char, .boolean] → Listed (.primitive type)
  | array {type : Primitive} : type ∈ [Primitive.int, .char, .boolean] → Listed (.array (.primitive type))

/-- The arguments are as many as the parameters, each of its parameter's type. -/
def Arguments.Fit (params : List Ty) (values : List Value) : Prop :=
  List.Forall₂ (fun type v => typeOf? v = some type) params values

/-- What a parameter's slot holds for an argument: the argument itself, 0 or 1 for a boolean, and
for an array the key under which it is on the heap. -/
inductive Value.Bound (heap : Heap) : Ty → Value → Value → Prop
  | int (n : Int) : Bound heap (.primitive .int) (.int n) (.int n)
  | char (n : Int) : Bound heap (.primitive .char) (.char n) (.char n)
  | boolean (b : Bool) : Bound heap (.primitive .boolean) (.boolean b) (.int (if b then 1 else 0))
  | array {element : Ty} {items : List Value} {key : Number} : heap.get? key = some (.array element items) →
      Bound heap (.array element) (.array element items) (.reference (some key))

/-- The key behind a reference. -/
def Value.key? : Value → Option Number
  | .reference ref => ref
  | _ => none

/-- The arguments are in the slots from 0 on, and the slots refer to the entries of the heap by
0, 1, 2, … in this order. -/
structure Arguments.InSlots (heap : Heap) (params : List Ty) (values : List Value) (locals : Table Number Value) :
    Prop where
  slots : locals.map (·.1) = (List.range params.length).map fun slot : Nat => Number.int slot
  bound : ∀ (slot : Nat) type v, params[slot]? = some type → values[slot]? = some v →
    ∃ w, Table.get? (.int slot) locals = some w ∧ v.Bound heap type w
  keys : locals.filterMap (·.2.key?) = (List.range heap.size).map fun key : Nat => Number.int key

/-- The state in which a method begins: in its only frame, at its first instruction, with nothing on
the operand stack and with the arrays among its arguments, and nothing else, on the heap. -/
structure State.Entered (method : MethodId) (values : List Value) (state : State) : Prop where
  frame : ∃ locals, state.frames = [⟨⟨method, .int 0⟩, locals, []⟩] ∧
    Arguments.InSlots state.heap method.params values locals
  heap : state.heap.entries.toList = values.filter Value.isArray
  statics : state.statics = []

/-! ## The check -/

namespace Arguments

variable {method : MethodId} {values : List Value}

theorem any_same_iff {actual : Option Ty} {expected : Ty} : actual.any expected.same = true ↔ actual = some expected := by
  cases actual with
  | none => simp
  | some type => rw [Option.any_some, Ty.same_eq_true_iff, Option.some.injEq, eq_comm]

theorem checkTypes_eq_ok_iff (method : MethodId) (index : Nat) {params : List Ty}
    (hcount : values.length = params.length) :
    checkTypes method index params values = .ok () ↔ Fit params values := by
  unfold Fit
  induction params generalizing index values with
  | nil =>
    obtain rfl := List.length_eq_zero_iff.1 hcount
    exact ⟨fun _ => .nil, fun _ => rfl⟩
  | cons type params ih =>
    cases values with
    | nil => simp at hcount
    | cons v values =>
      rw [List.forall₂_cons, checkTypes]
      split
      · rename_i hsame
        rw [any_same_iff] at hsame
        simp [hsame, ih (index + 1) (by simpa using hcount)]
      · rename_i hsame
        rw [any_same_iff] at hsame
        simp [hsame]

theorem check_eq_ok_iff : check method values = .ok () ↔ Fit method.params values := by
  unfold check
  split
  · rename_i hcount
    constructor
    · intro h
      cases h
    · intro h
      exact absurd h.length_eq.symm hcount
  · rename_i hcount
    exact checkTypes_eq_ok_iff method 0 (not_not.1 hcount)

theorem blamesInput_checkTypes (method : MethodId) (index : Nat) (params : List Ty) (values : List Value) :
    BlamesInput (checkTypes method index params values) := by
  fun_induction checkTypes method index params values with
  | case1 index type params v values hsame ih => exact ih
  | case2 index type params v values hsame => exact blamesInput_input _
  | case3 => exact blamesInput_ok _

/-- The check passes, or it blames the input. -/
theorem check_cases (method : MethodId) (values : List Value) :
    check method values = .ok () ∨ ∃ fault, check method values = .error fault ∧ fault.label = "InputParseError" := by
  cases hcheck : check method values with
  | ok => exact .inl rfl
  | error fault =>
    refine .inr ⟨fault, rfl, ?_⟩
    unfold check at hcheck
    split at hcheck
    · cases hcheck
      rfl
    · exact blamesInput_checkTypes method 0 method.params values fault hcheck

/-! ## The types of arguments -/

theorem Argument.listed {v : Value} (h : Argument v) {type : Ty} (htype : typeOf? v = some type) : type.Listed := by
  cases h with
  | scalar h =>
    cases h <;> cases htype <;> exact .scalar (by decide)
  | array hmem _ =>
    cases htype
    exact .array hmem

/-- Every type that can be listed has a value that can be. -/
theorem exists_argument {type : Ty} (h : type.Listed) : ∃ v, Argument v ∧ typeOf? v = some type := by
  cases h with
  | @scalar type hmem =>
    cases type with
    | int => exact ⟨.int 0, .scalar (.int (by decide) (by decide)), rfl⟩
    | char => exact ⟨.char 0, .scalar (.char 0), rfl⟩
    | boolean => exact ⟨.boolean false, .scalar (.boolean false), rfl⟩
    | short => simp at hmem
    | byte => simp at hmem
  | array hmem => exact ⟨.array _ [], .array hmem (List.forall_mem_nil _), rfl⟩

theorem exists_arguments {params : List Ty} (h : ∀ type ∈ params, type.Listed) :
    ∃ values, (∀ v ∈ values, Argument v) ∧ Fit params values := by
  induction params with
  | nil => exact ⟨[], List.forall_mem_nil _, .nil⟩
  | cons type params ih =>
    obtain ⟨htype, hparams⟩ := List.forall_mem_cons.1 h
    obtain ⟨v, hv, hfits⟩ := exists_argument htype
    obtain ⟨values, hvalues, hrest⟩ := ih hparams
    exact ⟨v :: values, List.forall_mem_cons.2 ⟨hv, hvalues⟩, .cons hfits hrest⟩

theorem Fit.listed {params : List Ty} (h : Fit params values) (hvalues : ∀ v ∈ values, Argument v) :
    ∀ type ∈ params, type.Listed := by
  unfold Fit at h
  induction h with
  | nil => exact List.forall_mem_nil _
  | cons hv _ ih =>
    obtain ⟨hargument, hrest⟩ := List.forall_mem_cons.1 hvalues
    exact List.forall_mem_cons.2 ⟨hargument.listed hv, ih hrest⟩

theorem exists_text {params : List Ty} (h : ∀ type ∈ params, type.Listed) :
    ∃ text values, parse text = .ok values ∧ Fit params values := by
  obtain ⟨values, hvalues, hfit⟩ := exists_arguments h
  exact ⟨_, values, parse_of_spells (spells_printed Text.blanks_nil hvalues), hfit⟩

end Arguments

/-! ## Binding -/

namespace State

variable {heap : Heap} {values : List Value}

theorem length_bindArguments (heap : Heap) (values : List Value) :
    (bindArguments heap values).1.length = values.length := by
  induction values generalizing heap with
  | nil => rfl
  | cons v values ih => simp [bindArguments, ih]

theorem get?_bindArgument {key : Number} {entry : Value} (h : heap.get? key = some entry) (v : Value) :
    (bindArgument heap v).2.get? key = some entry := by
  cases v with
  | array element items =>
    have hold : key ≠ .int heap.size := by
      rintro rfl
      simp [Heap.size] at h
    exact Heap.get?_allocate_eq_some.2 (.inr ⟨hold, h⟩)
  | _ => exact h

/-- Binding keeps what is on the heap. -/
theorem get?_bindArguments {key : Number} {entry : Value} (h : heap.get? key = some entry) (values : List Value) :
    (bindArguments heap values).2.get? key = some entry := by
  induction values generalizing heap with
  | nil => exact h
  | cons v values ih => exact ih (get?_bindArgument h v)

end State

theorem Value.Bound.mono {heap heap' : Heap} {type : Ty} {v w : Value} (h : v.Bound heap type w)
    (hkept : ∀ key entry, heap.get? key = some entry → heap'.get? key = some entry) : v.Bound heap' type w := by
  cases h with
  | int n => exact .int n
  | char n => exact .char n
  | boolean b => exact .boolean b
  | array hentry => exact .array (hkept _ _ hentry)

namespace State

open Arguments

variable {heap : Heap} {values : List Value}

theorem bound_bindArgument (heap : Heap) {type : Ty} {v : Value} (hv : Argument v) (htype : typeOf? v = some type) :
    v.Bound (bindArgument heap v).2 type (bindArgument heap v).1 := by
  cases hv with
  | scalar h =>
    cases h <;> cases htype
    · exact .int _
    · exact .boolean _
    · exact .char _
  | array hmem hitems =>
    cases htype
    exact .array (Heap.get?_allocate_eq_some.2 (.inl ⟨rfl, rfl⟩))

/-- Each argument is bound as one of its parameter's type. -/
theorem bound_bindArguments {params : List Ty} (hfit : Fit params values) (hvalues : ∀ v ∈ values, Argument v)
    (heap : Heap) {slot : Nat} {type : Ty} {v : Value} (htype : params[slot]? = some type)
    (hv : values[slot]? = some v) :
    ∃ w, (bindArguments heap values).1[slot]? = some w ∧ v.Bound (bindArguments heap values).2 type w := by
  unfold Fit at hfit
  induction hfit generalizing heap slot with
  | nil => simp at hv
  | @cons _ u params values hu _ ih =>
    obtain ⟨hargument, hrest⟩ := List.forall_mem_cons.1 hvalues
    cases slot with
    | zero =>
      cases htype
      cases hv
      refine ⟨_, rfl, (bound_bindArgument heap hargument hu).mono fun key entry hentry => ?_⟩
      exact get?_bindArguments hentry values
    | succ slot => exact ih hrest (bindArgument heap u).2 htype hv

/-- An array is bound by the next key, and nothing else is bound by a key. -/
theorem key?_bindArgument (heap : Heap) {v : Value} (hv : Argument v) :
    (bindArgument heap v).1.key? = if v.isArray then some (.int heap.size) else none := by
  cases hv with
  | scalar h => cases h <;> rfl
  | array hmem hitems => rfl

theorem keys_bindArguments (heap : Heap) (hvalues : ∀ v ∈ values, Argument v) :
    (bindArguments heap values).1.filterMap Value.key? =
      (List.range' heap.size (values.countP Value.isArray)).map fun key : Nat => Number.int key := by
  induction values generalizing heap with
  | nil => rfl
  | cons v values ih =>
    obtain ⟨hv, hrest⟩ := List.forall_mem_cons.1 hvalues
    simp only [bindArguments]
    rw [List.filterMap_cons, key?_bindArgument heap hv, ih _ hrest, List.countP_cons]
    cases hv with
    | scalar h => cases h <;> rfl
    | array hmem hitems => simp [Value.isArray, bindArgument, List.range'_succ]

/-- The slots of a fresh frame are numbered from 0 on. -/
theorem slots_start (method : MethodId) (args : List Value) :
    (Frame.start method args).locals.map (·.1) = (List.range args.length).map fun slot : Nat => Number.int slot := by
  rw [List.range_eq_range', ← List.zipIdx_map_snd, Frame.start, List.map_map, List.map_map]
  rfl

theorem keys_start (method : MethodId) (args : List Value) :
    (Frame.start method args).locals.filterMap (·.2.key?) = args.filterMap Value.key? := by
  have hargs : args = args.zipIdx.map (·.1) := (List.zipIdx_map_fst 0 args).symm
  conv_rhs => rw [hargs]
  rw [Frame.start, List.filterMap_map, List.filterMap_map]
  rfl

/-- The arrays on the heap are as many as there are among the arguments. -/
theorem size_initial (method : MethodId) (values : List Value) :
    (initial method values).heap.size = values.countP Value.isArray := by
  rw [Heap.size, ← Array.length_toList, entries_initial, List.countP_eq_length_filter]

theorem inSlots_start {method : MethodId} (hvalues : ∀ v ∈ values, Argument v) (hfit : Fit method.params values) :
    InSlots (initial method values).heap method.params values
      (Frame.start method (bindArguments .empty values).1).locals where
  slots := by rw [slots_start, length_bindArguments, hfit.length_eq]
  bound slot type v htype hv := by
    obtain ⟨w, hw, hbound⟩ := bound_bindArguments hfit hvalues .empty htype hv
    refine ⟨w, ?_, hbound⟩
    rw [History.get?_start]
    simpa using hw
  keys := by
    rw [keys_start, size_initial, List.range_eq_range']
    exact keys_bindArguments .empty hvalues

theorem entered_initial {method : MethodId} (hvalues : ∀ v ∈ values, Argument v) (hfit : Fit method.params values) :
    (initial method values).Entered method values where
  frame := ⟨_, rfl, inSlots_start hvalues hfit⟩
  heap := entries_initial method values
  statics := rfl

end State

/-! ## Both -/

open Arguments in
/-- Arguments that a text lists and that pass the check put a method into a state of its declared
types. The check passes if and only if the arguments fit the parameters, and blames the input
otherwise. So a method with a parameter of a type that no text can list (`short`, `byte`, a class, an
array of arrays) refuses all that is read, and every other method can be begun. -/
theorem begins_as_declared (method : MethodId) :
    (∀ text values, parse text = .ok values → check method values = .ok () →
      (State.initial method values).Entered method values) ∧
    (∀ values, (check method values = .ok () ↔ Fit method.params values) ∧
      (¬Fit method.params values → ∃ fault, check method values = .error fault ∧ fault.label = "InputParseError")) ∧
    (∀ type ∈ method.params, ¬type.Listed → ∀ text values, parse text = .ok values →
      ∃ fault, check method values = .error fault ∧ fault.label = "InputParseError") ∧
    ((∀ type ∈ method.params, type.Listed) →
      ∃ text values, parse text = .ok values ∧ check method values = .ok ()) := by
  have hrefused : ∀ values, ¬Fit method.params values →
      ∃ fault, check method values = .error fault ∧ fault.label = "InputParseError" := by
    intro values hunfit
    exact (check_cases method values).resolve_left fun hpass => hunfit (check_eq_ok_iff.1 hpass)
  refine ⟨?_, fun values => ⟨check_eq_ok_iff, hrefused values⟩, ?_, ?_⟩
  · intro text values hparse hcheck
    exact State.entered_initial (argument_of_parse hparse) (check_eq_ok_iff.1 hcheck)
  · intro type htype hlisted text values hparse
    exact hrefused values fun hfit => hlisted (hfit.listed (argument_of_parse hparse) type htype)
  · intro hlisted
    obtain ⟨text, values, hparse, hfit⟩ := exists_text hlisted
    exact ⟨text, values, hparse, check_eq_ok_iff.2 hfit⟩

namespace Sample

/-- Takes an array behind a scalar, twice. -/
def mix : MethodId :=
  ⟨"Sample", "mix", [.primitive .int, .array (.primitive .int), .primitive .boolean, .array (.primitive .char)], none⟩

def mixed : List Value :=
  [.int 7, .array (.primitive .int) [.int 1, .int 2], .boolean true, .array (.primitive .char) [.char 104]]

end Sample

open Sample Arguments in
/-- The second array is in slot 3 and has the key 1. -/
theorem arrays_are_keyed_in_order :
    parse "(7, [I:1,2], true, [C:'h'])" = .ok mixed ∧ check mix mixed = .ok () ∧
    (State.initial mix mixed).Entered mix mixed ∧
    (State.initial mix mixed).frames.map (·.locals) = [[(.int 0, .int 7), (.int 1, .reference (some (.int 0))),
      (.int 2, .int 1), (.int 3, .reference (some (.int 1)))]] := by
  have hparse : parse "(7, [I:1,2], true, [C:'h'])" = .ok mixed := by cbv
  have hcheck : check mix mixed = .ok () := rfl
  exact ⟨hparse, hcheck, (begins_as_declared mix).1 _ _ hparse hcheck, rfl⟩

end Bytecode
