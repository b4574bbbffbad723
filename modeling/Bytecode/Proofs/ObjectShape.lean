import Bytecode.Proofs.HeapShape
import Bytecode.Proofs.Reference
import Mathlib.Data.List.Induction
/-!
# The shape of objects

A fresh object has the instance fields that its class declares, each with a value
of the category of its type. Nothing but a `put` changes an object, and a `put`
looks neither at the name of the field nor at the value: the shape of all objects
lasts exactly as long as no instruction of the run puts a value into a field that
the class does not declare, or a value of the other category into one that it
does (`objects_keep_shape_iff`). Declared fields are never lost.
-/
namespace Bytecode

/-- What a variable of a type holds: a scalar or a reference. -/
def Ty.category : Ty → Category
  | .primitive _ => .int
  | _ => .ref

theorem Value.fits_default (type : Ty) : Exec.fits type.category (default type) := by
  cases type with
  | primitive p => cases p <;> rfl
  | _ => rfl

/-! ## Declared fields -/

/-- The entry of a key is the last one that was given for it. -/
theorem Table.get?_ofEntries {κ ν : Type} [DecidableEq κ] (key : κ) (entries : List (κ × ν)) :
    get? key (ofEntries entries) = (entries.reverse.find? fun entry => entry.1 = key).map (·.2) := by
  -- Entries are bound from the first to the last, so the induction takes away the last one.
  induction entries using List.reverseRecOn with
  | nil => rfl
  | append_singleton entries entry ih =>
    have hlast : ofEntries (entries ++ [entry]) = insert entry.1 entry.2 (ofEntries entries) :=
      List.foldl_append ..
    rw [hlast, List.reverse_append, List.reverse_singleton, List.singleton_append, List.find?_cons]
    by_cases hkey : entry.1 = key
    · subst hkey
      simp [get?_insert_self]
    · rw [get?_insert_of_ne (Ne.symm hkey), ih]
      simp [hkey]

namespace ClassInfo

/-- The type of the instance field that a class declares under a name. Of several declarations the
last one counts. -/
def instanceType? (name : Text) (info : ClassInfo) : Option Ty :=
  ((info.fields.filter (!·.isStatic)).reverse.find? fun f => f.name = name).map (·.type)

/-- The fields of an object are the instance fields of its class, with values of the categories of
their types. -/
structure Shapes (info : ClassInfo) (fields : Table Text Value) : Prop where
  names : ∀ name, (Table.get? name fields).isSome = (info.instanceType? name).isSome
  fits : ∀ name type v, info.instanceType? name = some type → Table.get? name fields = some v →
    Exec.fits type.category v

/-- A field of a fresh object has the default value of its declared type. -/
theorem get?_freshFields (name : Text) (info : ClassInfo) :
    Table.get? name (Exec.freshFields info) = (info.instanceType? name).map Value.default := by
  unfold Exec.freshFields instanceType?
  rw [Table.get?_ofEntries, ← List.map_reverse, List.find?_map, Option.map_map, Option.map_map]
  rfl

theorem shapes_freshFields (info : ClassInfo) : info.Shapes (Exec.freshFields info) where
  names name := by rw [get?_freshFields, Option.isSome_map]
  fits name type v htype hget := by
    rw [get?_freshFields, htype] at hget
    cases hget
    exact Value.fits_default type

/-- Putting a value into a declared field of its category keeps the shape. -/
theorem Shapes.insert {info : ClassInfo} {fields : Table Text Value} (h : info.Shapes fields) {name : Text} {type : Ty}
    (htype : info.instanceType? name = some type) {v : Value} (hv : Exec.fits type.category v) :
    info.Shapes (Table.insert name v fields) where
  names other := by
    by_cases hsame : other = name
    · subst hsame
      rw [Table.get?_insert_self, htype]
      rfl
    · rw [Table.get?_insert_of_ne hsame]
      exact h.names other
  fits other type' w htype' hget := by
    by_cases hsame : other = name
    · subst hsame
      rw [Table.get?_insert_self] at hget
      cases hget
      cases htype.symm.trans htype'
      exact hv
    · rw [Table.get?_insert_of_ne hsame] at hget
      exact h.fits other type' w htype' hget

end ClassInfo

/-! ## Objects along a step -/

/-- The property holds of the class and the fields of every object. -/
def Heap.Objects (P : Text → Table Text Value → Prop) (heap : Heap) : Prop :=
  ∀ ref className fields, heap.get? ref = some (.object className fields) → P className fields

/-- The next instruction puts a value into a field of an object of that class with these fields. -/
inductive Machine.Puts (machine : Machine) (field : FieldRef) (v : Value) (ref : Number) (className : Text)
    (fields : Table Text Value) : Prop
  | intro {frame callers store rest} : machine.At frame callers (.put false field) store →
      frame.stack = v :: .reference (some ref) :: rest →
      machine.state.heap.get? ref = some (.object className fields) → Puts machine field v ref className fields

section Step

variable {P : Text → Table Text Value → Prop}

theorem Heap.Objects.allocate {heap : Heap} (h : heap.Objects P) {v : Value}
    (hv : ∀ className fields, v = .object className fields → P className fields) : (heap.allocate v).Objects P := by
  intro ref className fields hentry
  rcases get?_allocate_eq_some.1 hentry with ⟨-, hnew⟩ | ⟨-, hold⟩
  · exact hv className fields hnew
  · exact h ref className fields hold

theorem Heap.Objects.set {heap : Heap} (h : heap.Objects P) {key : Number} {v : Value}
    (hv : ∀ className fields, v = .object className fields → P className fields) : (heap.set key v).Objects P := by
  intro ref className fields hentry
  rcases get?_set_eq_some.1 hentry with ⟨-, -, hnew⟩ | ⟨-, hold⟩
  · exact hv className fields hnew
  · exact h ref className fields hold

/-- Objects are made with fresh fields and changed by `put`; what holds of fresh fields and is
kept by the next `put` is kept by the step. -/
theorem Heap.Objects.step {machine next : Machine} {move : Move} (h : machine.state.heap.Objects P)
    (hfresh : ∀ frame callers className store info store', machine.At frame callers (.new className) store →
      Store.classInfo className store = .ok info store' → P className (Exec.freshFields info))
    (hput : ∀ field v ref className fields, machine.Puts field v ref className fields → P className fields →
      P className (Table.insert field.name v fields))
    (hstep : Bytecode.step machine = .next move next) : next.state.heap.Objects P := by
  obtain ⟨frame, callers, i, store, hat⟩ := at_of_next hstep
  obtain ⟨control, act, heffect, rfl⟩ := hat.effect hstep
  change act.heap.Objects P
  cases heffect with
  | new hne hinfo =>
    refine h.allocate fun className fields heq => ?_
    cases heq
    exact hfresh _ _ _ _ _ _ hat hinfo
  | newArray => exact h.allocate fun _ _ heq => by cases heq
  | putField hstack hentry =>
    refine h.set fun className fields heq => ?_
    cases heq
    exact hput _ _ _ _ _ (.intro hat hstack hentry) (h _ _ _ hentry)
  | arrayStore => exact h.set fun _ _ heq => by cases heq
  | _ => exact h

end Step

/-! ## `put` and `get` on objects -/

namespace Exec

variable {act : Activation} {field : FieldRef} {ref : Number} {rest : OperandStack} {className : Text}
  {fields : Table Text Value}

/-- A `put` looks neither at the field's name nor at the value. -/
theorem putField_object {v : Value} (hstack : act.frame.stack = v :: .reference (some ref) :: rest)
    (hentry : act.heap.get? ref = some (.object className fields)) :
    putField field act = .ok .next { act.withStack rest with
      heap := act.heap.set ref (.object className (Table.insert field.name v fields)) } := by
  have hpop : pop act = .ok v _ := pop_eq_ok.2 ⟨_, hstack, rfl⟩
  have hkey : popKey (act.withStack (.reference (some ref) :: rest)) = .ok ref (act.withStack rest) :=
    popKey_eq_ok.2 ⟨rest, rfl, rfl⟩
  have hobject : objectOf ref (act.withStack rest) = .ok (className, fields) _ := objectOf_eq_ok.2 ⟨hentry, rfl⟩
  rw [putField, bind_of_ok hpop, bind_of_ok hkey, bind_of_ok hobject]
  rfl

theorem getField_missing (hstack : act.frame.stack = .reference (some ref) :: rest)
    (hentry : act.heap.get? ref = some (.object className fields)) (hmissing : Table.get? field.name fields = none) :
    getField field act = .error (.fault (.malformed (.noSuchField field ref))) (act.withStack rest) := by
  have hkey : popKey act = .ok ref (act.withStack rest) := popKey_eq_ok.2 ⟨rest, hstack, rfl⟩
  have hobject : objectOf ref (act.withStack rest) = .ok (className, fields) _ := objectOf_eq_ok.2 ⟨hentry, rfl⟩
  rw [getField, bind_of_ok hkey, bind_of_ok hobject]
  simp only [bind_apply, fieldOf, hmissing]
  rfl

end Exec

/-- A `put` on an object goes on, whatever the field and the value are. -/
theorem Machine.Puts.step {machine : Machine} {field : FieldRef} {v : Value} {ref : Number} {className : Text}
    {fields : Table Text Value} (h : machine.Puts field v ref className fields) :
    ∃ next, Bytecode.step machine = .next .stay next ∧
      next.state.heap = machine.state.heap.set ref (.object className (Table.insert field.name v fields)) := by
  obtain ⟨hat, hstack, hentry⟩ := h
  exact ⟨_, hat.step_of_ok (Exec.putField_object hstack hentry), rfl⟩

/-- A `get` of a field that the object does not have fails. -/
theorem step_getMissing {machine : Machine} {frame : Frame} {callers : List Frame} {field : FieldRef} {store : Store}
    {ref : Number} {rest : OperandStack} {className : Text} {fields : Table Text Value}
    (hat : machine.At frame callers (.get false field) store) (hstack : frame.stack = .reference (some ref) :: rest)
    (hentry : machine.state.heap.get? ref = some (.object className fields))
    (hmissing : Table.get? field.name fields = none) :
    ∃ left, step machine = .fault (.malformed (.noSuchField field ref)) left :=
  ⟨_, hat.step_of_error (Exec.getField_missing hstack hentry hmissing)⟩

/-! ## Runs -/

/-- All objects have the fields that the image's declaration of their class gives them. -/
def Heap.Shaped (image : Image) (heap : Heap) : Prop :=
  heap.Objects fun className fields => ∃ info, answer (Image.classInfo className image) = .ok info ∧ info.Shapes fields

/-- No object lacks a field that its class declares. -/
def Heap.Complete (image : Image) (heap : Heap) : Prop :=
  heap.Objects fun className fields => ∃ info, answer (Image.classInfo className image) = .ok info ∧
    ∀ name, (info.instanceType? name).isSome → (Table.get? name fields).isSome

/-- The class declares an instance field of that name, for values of that category. -/
def Image.Takes (image : Image) (className name : Text) (v : Value) : Prop :=
  ∃ info type, answer (Image.classInfo className image) = .ok info ∧ info.instanceType? name = some type ∧
    Exec.fits type.category v

/-- The next instruction puts a value into a field of an object whose class does not take it there. -/
def Machine.Misputs (image : Image) (machine : Machine) : Prop :=
  ∃ field v ref className fields, machine.Puts field v ref className fields ∧ ¬image.Takes className field.name v

section Runs

variable {image : Image}

theorem Store.Knows.reaches {first last : Machine} {k : Nat} (h : first.store.Knows image)
    (hreaches : Reaches first k last) : last.store.Knows image :=
  hreaches.keeps_store (fun className _ hs => (hs.classInfo className).2) (fun pc _ hs => hs.fetch pc) h

/-- The declaration by which an object is made is the image's. -/
theorem Store.Knows.answer_of_new {machine : Machine} (h : machine.store.Knows image) {frame : Frame}
    {callers : List Frame} {className : Text} {store store' : Store} {info : ClassInfo}
    (hat : machine.At frame callers (.new className) store)
    (hinfo : Store.classInfo className store = .ok info store') :
    answer (Image.classInfo className image) = .ok info := by
  have hknows := h.fetch frame.pc
  rw [hat.fetched] at hknows
  have hanswer := (hknows.classInfo className).1
  change answer (Store.classInfo className store) = _ at hanswer
  rw [hinfo] at hanswer
  exact hanswer.symm

theorem Heap.Shaped.step {machine next : Machine} {move : Move} (hknows : machine.store.Knows image)
    (h : machine.state.heap.Shaped image) (hput : ¬machine.Misputs image)
    (hstep : Bytecode.step machine = .next move next) : next.state.heap.Shaped image := by
  refine Objects.step h ?_ ?_ hstep
  · intro frame callers className store info store' hat hinfo
    exact ⟨info, hknows.answer_of_new hat hinfo, info.shapes_freshFields⟩
  · rintro field v ref className fields hputs ⟨info, hinfo, hshapes⟩
    have htakes : image.Takes className field.name v := Classical.byContradiction fun hrefuses =>
      hput ⟨field, v, ref, className, fields, hputs, hrefuses⟩
    obtain ⟨info', type, hinfo', htype, hfits⟩ := htakes
    cases hinfo.symm.trans hinfo'
    exact ⟨info, hinfo, hshapes.insert htype hfits⟩

theorem Heap.Complete.step {machine next : Machine} {move : Move} (hknows : machine.store.Knows image)
    (h : machine.state.heap.Complete image) (hstep : Bytecode.step machine = .next move next) :
    next.state.heap.Complete image := by
  refine Objects.step h ?_ ?_ hstep
  · intro frame callers className store info store' hat hinfo
    refine ⟨info, hknows.answer_of_new hat hinfo, fun name hname => ?_⟩
    rw [info.shapes_freshFields.names]
    exact hname
  · rintro field v ref className fields - ⟨info, hinfo, hcomplete⟩
    refine ⟨info, hinfo, fun name hname => ?_⟩
    by_cases hsame : name = field.name
    · subst hsame
      rw [Table.get?_insert_self]
      rfl
    · rw [Table.get?_insert_of_ne hsame]
      exact hcomplete name hname

/-- A put into a field where it does not belong leaves an object out of shape. -/
theorem Machine.Misputs.spoils {machine : Machine} (h : machine.Misputs image) :
    ∃ next, Bytecode.step machine = .next .stay next ∧ ¬next.state.heap.Shaped image := by
  obtain ⟨field, v, ref, className, fields, hputs, hrefuses⟩ := h
  obtain ⟨next, hstep, hheap⟩ := hputs.step
  refine ⟨next, hstep, fun hshaped => hrefuses ?_⟩
  have hentry : next.state.heap.get? ref = some (.object className (Table.insert field.name v fields)) := by
    obtain ⟨_, _, hold⟩ := hputs
    rw [hheap]
    exact Heap.get?_set_eq_some.2 (.inl ⟨rfl, by simp [hold], rfl⟩)
  obtain ⟨info, hinfo, hshapes⟩ := hshaped _ _ _ hentry
  have hname := hshapes.names field.name
  rw [Table.get?_insert_self] at hname
  obtain ⟨type, htype⟩ := Option.isSome_iff_exists.1 hname.symm
  exact ⟨info, type, hinfo, htype, hshapes.fits _ _ _ htype (Table.get?_insert_self ..)⟩

theorem State.objects_initial {P : Text → Table Text Value → Prop} (method : MethodId) (values : List Value) :
    (initial method values).heap.Objects P := by
  intro ref className fields hentry
  have hmem := Array.mem_toList_iff.2 (Heap.mem_of_get? hentry)
  rw [entries_initial] at hmem
  cases (List.mem_filter.1 hmem).2

end Runs

/-- From any method, arguments and image: through some steps all objects have exactly
the instance fields that their classes declare, scalars in fields of scalar types and
references in the others, if and only if none of these steps puts a value where the
class does not take it. No object ever lacks a field that its class declares, and a
`get` of a field that an object does not have is refused. -/
theorem objects_keep_shape_iff (image : Image) (method : MethodId) (values : List Value) (k : Nat) :
    let first : Machine := ⟨State.initial method values, .ofImage image⟩
    ((∀ j ≤ k, ∀ machine, Reaches first j machine → machine.state.heap.Shaped image) ↔
      ∀ j < k, ∀ machine, Reaches first j machine → ¬machine.Misputs image) ∧
    (∀ machine, Reaches first k machine → machine.state.heap.Complete image) ∧
    (∀ machine, Reaches first k machine → ∀ frame callers field store ref rest className fields,
      machine.At frame callers (.get false field) store → frame.stack = .reference (some ref) :: rest →
      machine.state.heap.get? ref = some (.object className fields) → Table.get? field.name fields = none →
      ∃ left, step machine = .fault (.malformed (.noSuchField field ref)) left) := by
  intro first
  have hknows : ∀ {j machine}, Reaches first j machine → machine.store.Knows image := fun hreaches =>
    (Store.faithful_ofImage image).knows.reaches hreaches
  refine ⟨⟨?_, ?_⟩, ?_, ?_⟩
  · intro hshaped j hj machine hreaches hmisputs
    obtain ⟨next, hstep, hspoiled⟩ := hmisputs.spoils
    exact hspoiled (hshaped (j + 1) hj next (hreaches.step hstep))
  · intro hputs j hj machine hreaches
    induction hreaches with
    | refl => exact State.objects_initial method values
    | @step j machine next move hbefore hstep ih =>
      exact (ih (Nat.le_of_succ_le hj)).step (hknows hbefore) (hputs j hj machine hbefore) hstep
  · intro machine hreaches
    induction hreaches with
    | refl => exact State.objects_initial method values
    | step hbefore hstep ih => exact ih.step (hknows hbefore) hstep
  · intro machine _ frame callers field store ref rest className fields hat hstack hentry hmissing
    exact step_getMissing hat hstack hentry hmissing

namespace Sample

def draw : MethodId := ⟨"Sample", "draw", [], none⟩

/-- A field that no point has. -/
def height : FieldRef := ⟨"Point", "y", .primitive .int⟩

/-- Makes a point and puts a number into that field. -/
def drawCode : Code := #[.new "Point", .push (.int 5), .put false height, .return none]

/-- Points have one coordinate. -/
def pointImage : Image :=
  .registry ((Registry.empty.addClass "Point" [⟨"x", .primitive .int, false, none⟩]).addMethod draw drawCode)

theorem decoded_drawCode : drawCode.Decoded :=
  ⟨[record "new" [("class", .string "Point")],
    record "push" [("value", .object [("type", .string "int"), ("value", .number (.int 5))])],
    record "put" [("static", .bool false),
      ("field", .object [("class", .string "Point"), ("name", .string "y"), ("type", .string "int")])],
    record "return" []], rfl⟩

theorem decoded_pointImage : pointImage.Decoded := by
  refine Image.decoded_registry fun code hcode => ?_
  have hcodes : code ∈ [drawCode] := hcode
  obtain rfl := List.mem_singleton.1 hcodes
  exact decoded_drawCode

/-- In the method at an offset, with a point of some fields on the heap. -/
def drawing (fields : Table Text Value) (offset : Int) (stack : OperandStack) : Machine :=
  ⟨⟨⟨#[.object "Point" fields]⟩, [⟨⟨draw, .int offset⟩, [], stack⟩], []⟩,
    ⟨pointImage, [(draw.text, drawCode)], [("Point", ⟨"Point", [⟨"x", .primitive .int, false, none⟩]⟩)]⟩⟩

end Sample

open Sample in
/-- A number is put into a field that the object does not have, and now it has it. -/
theorem undeclared_field_is_put : pointImage.Decoded ∧
    ∃ machine, Reaches ⟨State.initial draw [], .ofImage pointImage⟩ 3 machine ∧
      ¬machine.state.heap.Shaped pointImage := by
  let key : Value := .reference (some (.int 0))
  have hmake : step ⟨State.initial draw [], .ofImage pointImage⟩ = .next .stay (drawing [("x", .int 0)] 1 [key]) := rfl
  have hvalue : step (drawing [("x", .int 0)] 1 [key]) = .next .stay (drawing [("x", .int 0)] 2 [.int 5, key]) := rfl
  have hput : step (drawing [("x", .int 0)] 2 [.int 5, key]) =
      .next .stay (drawing [("x", .int 0), ("y", .int 5)] 3 []) := rfl
  refine ⟨decoded_pointImage, _, ((Reaches.refl.step hmake).step hvalue).step hput, fun hshaped => ?_⟩
  obtain ⟨info, hinfo, hshapes⟩ := hshaped (.int 0) "Point" [("x", .int 0), ("y", .int 5)] rfl
  cases hinfo
  exact absurd (hshapes.names "y") (by decide)

end Bytecode
