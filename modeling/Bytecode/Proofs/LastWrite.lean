import Bytecode.Proofs.Context
import Bytecode.Proofs.Memory
/-!
# Every read sees the last write

What an instruction reads from a local slot, an array or an object is what the history of
the run last set there (`reads_see_last_write`), since memory is what the history says.
Arrays are asked for a reference first and for a place in it next, so that a null
reference is found whatever the index is (`Exec.atIndex_null`, `Exec.atIndex_array`).
-/
namespace Bytecode

/-! ## Indices -/

namespace Exec

/-- What `array_load` and `array_store` do first: they pop an index and a reference and find the place. -/
def atIndex (rest : Number → Ty × List Value → Nat → Exec Control) : Exec Control := do
  let index ← popInt
  let ref ← popKey
  let array ← arrayOf ref
  let place ← placeIn array.2 index
  rest ref array place

theorem arrayLoad_eq : arrayLoad = atIndex fun _ array place => do
    push (← orHalt .outOfBounds array.2[place]?)
    return .next := rfl

theorem arrayStore_eq : arrayStore = (do
    let v ← pop
    atIndex fun ref array place => do
      let w ← coerce array.1 v
      modify fun act => { act with heap := act.heap.set ref (.array array.1 (array.2.set place w)) }
      return .next : Exec Control) := rfl

variable {act : Activation} {index : Value} {n : Int} {rest : OperandStack}
  {k : Number → Ty × List Value → Nat → Exec Control}

theorem atIndex_null (hstack : act.frame.stack = index :: .reference none :: rest) (hn : index.toInt? = some n) :
    atIndex k act = .error (.halt .nullPointer) (act.withStack rest) := by
  have hindex : popInt act = .ok n (act.withStack (.reference none :: rest)) :=
    popInt_eq_ok.2 ⟨index, _, hstack, hn, rfl⟩
  have href : popReference (act.withStack (.reference none :: rest)) = .ok none (act.withStack rest) :=
    popReference_eq_ok.2 ⟨rest, rfl, rfl⟩
  rw [atIndex, bind_of_ok hindex, bind_apply, popKey, bind_of_ok href]
  rfl

/-- An array is gone on with at a place in it, and all other indices are out of bounds. -/
theorem atIndex_array {key : Number} {element : Ty} {items : List Value}
    (hstack : act.frame.stack = index :: .reference (some key) :: rest) (hn : index.toInt? = some n)
    (hentry : act.heap.get? key = some (.array element items)) :
    atIndex k act = if 0 ≤ n ∧ n < items.length then k key (element, items) n.toNat (act.withStack rest)
      else .error (.halt .outOfBounds) (act.withStack rest) := by
  have hindex : popInt act = .ok n (act.withStack (.reference (some key) :: rest)) :=
    popInt_eq_ok.2 ⟨index, _, hstack, hn, rfl⟩
  have href : popKey (act.withStack (.reference (some key) :: rest)) = .ok key (act.withStack rest) :=
    popKey_eq_ok.2 ⟨rest, rfl, rfl⟩
  have harray : arrayOf key (act.withStack rest) = .ok (element, items) (act.withStack rest) :=
    arrayOf_eq_ok.2 ⟨hentry, rfl⟩
  rw [atIndex, bind_of_ok hindex, bind_of_ok href, bind_of_ok harray]
  split
  · rename_i hbounds
    have hplace : placeIn items n (act.withStack rest) = .ok n.toNat (act.withStack rest) :=
      placeIn_eq_ok.2 ⟨⟨hbounds.1, by omega, rfl⟩, rfl⟩
    rw [bind_of_ok hplace]
  · rename_i hbounds
    have hplace : placeIn items n = halt .outOfBounds := if_neg (by simpa using hbounds)
    rw [bind_apply, hplace]
    rfl

/-- A value that does not fit is a fault. -/
theorem coerce_ne_halt {element : Ty} {v : Value} {outcome : Outcome} {act' : Activation} :
    coerce element v act ≠ .error (.halt outcome) act' := by
  cases element with
  | primitive p =>
    intro h
    cases v <;> cases h
  | _ =>
    intro h
    cases v <;> cases h

/-- Reading an unwritten slot fails. -/
theorem execute_load_unwritten {category : Category} {slot : Int}
    (h : Table.get? (.int slot) act.frame.locals = none) :
    execute (.load category slot) act = .error (.fault (.unwrittenLocal (.int slot) act.frame.pc.text)) act := by
  have hload : act.frame.load (.int slot) = .error (.unwrittenLocal (.int slot) act.frame.pc.text) := by
    rw [Frame.load, h]
  change (orRaise (act.frame.load (.int slot)) >>= _) act = _
  rw [hload]
  rfl

end Exec

/-! ## Reads -/

/-- The operands of the innermost frame. -/
def Machine.operands (machine : Machine) : OperandStack :=
  match machine.state.frames with
  | [] => []
  | frame :: _ => frame.stack

/-- The next instruction takes an item of an array or sets one, at an index behind a reference. -/
inductive Machine.Indexes (machine : Machine) (index : Value) (ref : Option Number) : Prop
  | load {frame callers type store rest} : machine.At frame callers (.arrayLoad type) store →
      frame.stack = index :: .reference ref :: rest → Indexes machine index ref
  | store {frame callers type store v rest} : machine.At frame callers (.arrayStore type) store →
      frame.stack = v :: index :: .reference ref :: rest → Indexes machine index ref

/-- Both kinds of instructions go on from their place in the array, and do not halt there. -/
theorem Machine.Indexes.execute_eq {machine : Machine} {index : Value} {ref : Option Number}
    (h : machine.Indexes index ref) :
    ∃ frame callers i store act rest k, machine.At frame callers i store ∧
      execute i ⟨frame, machine.state.heap, machine.state.statics, store⟩ = Exec.atIndex k act ∧
      act.frame.stack = index :: .reference ref :: rest ∧ act.heap = machine.state.heap ∧
      ∀ key element items place, place < items.length → ∀ before outcome after,
        k key (element, items) place before ≠ .error (.halt outcome) after := by
  cases h with
  | @load frame callers type store rest hat hstack =>
    refine ⟨frame, callers, _, store, _, rest, _, hat, congrFun Exec.arrayLoad_eq _, hstack, rfl, ?_⟩
    intro key element items place hplace before outcome after h
    simp only [List.getElem?_eq_getElem hplace] at h
    cases h
  | @store frame callers type store v rest hat hstack =>
    have hpop : Exec.pop ⟨frame, machine.state.heap, machine.state.statics, store⟩ = .ok v _ :=
      Exec.pop_eq_ok.2 ⟨_, hstack, rfl⟩
    refine ⟨frame, callers, _, store, _, rest, _, hat,
      (congrFun Exec.arrayStore_eq _).trans (bind_of_ok hpop), rfl, rfl, ?_⟩
    intro key element items place _ before outcome after h
    rw [bind_apply] at h
    cases hcoerce : Exec.coerce element v before with
    | ok w act =>
      rw [hcoerce] at h
      cases h
    | error stop act =>
      rw [hcoerce] at h
      cases h
      exact Exec.coerce_ne_halt hcoerce

/-- What the next instruction reads is what the history last set. -/
structure Machine.ReadsLast (image : Image) (past : History) (machine : Machine) : Prop where
  /-- A `load` that goes on pushes what its slot was last set to in this activation. -/
  load {frame callers category slot store move next} : machine.At frame callers (.load category slot) store →
    step machine = .next move next → ∃ v, past.slot? slot 0 = some v ∧ next.operands = v :: frame.stack
  /-- A `load` of a slot that was set to nothing fails. -/
  unwritten {frame callers category slot store} : machine.At frame callers (.load category slot) store →
    past.slot? slot 0 = none → ∃ left, step machine = .fault (.unwrittenLocal (.int slot) frame.pc.text) left
  /-- An `array_load` that goes on pushes what the item was last set to. -/
  arrayLoad {frame callers type store move next} : machine.At frame callers (.arrayLoad type) store →
    step machine = .next move next → ∃ index n key rest v, frame.stack = index :: .reference (some key) :: rest ∧
      index.toInt? = some n ∧ 0 ≤ n ∧ past.item? key n.toNat = some v ∧ next.operands = v :: rest
  /-- A `get` that goes on pushes what the field was last set to. -/
  get {frame callers field store move next} : machine.At frame callers (.get false field) store →
    step machine = .next move next → ∃ key rest v, frame.stack = .reference (some key) :: rest ∧
      past.field? image key field.name = some v ∧ next.operands = v :: rest
  /-- Behind null there is no array, whatever the index is. -/
  null {index n} : machine.Indexes index none → index.toInt? = some n →
    ∃ left, step machine = .halt .nullPointer none left
  /-- The places of an array are those from 0 up to its length. -/
  bounds {index n key element items} : machine.Indexes index (some key) → index.toInt? = some n →
    machine.state.heap.get? key = some (.array element items) →
      ((∃ left, step machine = .halt .outOfBounds none left) ↔ ¬(0 ≤ n ∧ n < items.length))

section

variable {image : Image} {machine : Machine} {index : Value} {n : Int}

theorem Machine.Indexes.null (h : machine.Indexes index none) (hn : index.toInt? = some n) :
    ∃ left, step machine = .halt .nullPointer none left := by
  obtain ⟨frame, callers, i, store, act, rest, k, hat, hexecute, hstack, -, -⟩ := h.execute_eq
  rw [Exec.atIndex_null hstack hn] at hexecute
  exact ⟨_, hat.step_of_error hexecute⟩

theorem Machine.Indexes.bounds {key : Number} {element : Ty} {items : List Value} (h : machine.Indexes index (some key))
    (hn : index.toInt? = some n) (hentry : machine.state.heap.get? key = some (.array element items)) :
    (∃ left, step machine = .halt .outOfBounds none left) ↔ ¬(0 ≤ n ∧ n < items.length) := by
  obtain ⟨frame, callers, i, store, act, rest, k, hat, hexecute, hstack, hheap, hgoes⟩ := h.execute_eq
  rw [Exec.atIndex_array hstack hn (hheap ▸ hentry)] at hexecute
  by_cases hbounds : 0 ≤ n ∧ n < items.length
  · rw [if_pos hbounds] at hexecute
    refine ⟨?_, fun hout => absurd hbounds hout⟩
    rintro ⟨left, hstep⟩
    cases hresult : k key (element, items) n.toNat (act.withStack rest) with
    | ok control act' =>
      -- What goes on ends the program with `ok` at most.
      rw [hat.step_of_ok (hexecute.trans hresult)] at hstep
      rcases control.apply_cases act' callers with ⟨_, happly, -⟩ | ⟨_, -, -, happly⟩ <;>
      · rw [happly] at hstep
        cases hstep
    | error stop act' =>
      rw [hat.step_of_error (hexecute.trans hresult)] at hstep
      cases stop with
      | halt outcome => exact (hgoes key element items n.toNat (by omega) _ _ _ hresult).elim
      | fault f => cases hstep
  · rw [if_neg hbounds] at hexecute
    exact ⟨fun _ => hbounds, fun _ => ⟨_, hat.step_of_error hexecute⟩⟩

/-- Where memory is what the history says, so is what is read. -/
theorem State.Remembers.readsLast {past : History} (h : machine.state.Remembers image past) :
    machine.ReadsLast image past where
  load {frame callers category slot store move next} hat hstep := by
    have hslots := (History.slots_cons.1 (hat.frames ▸ h.slots)).1
    obtain ⟨control, act, heffect, rfl⟩ := hat.effect hstep
    cases heffect with
    | load hget hfits => exact ⟨_, (hslots slot).symm.trans hget, rfl⟩
  unwritten {frame callers category slot store} hat hnone := by
    have hslots := (History.slots_cons.1 (hat.frames ▸ h.slots)).1
    exact ⟨_, hat.step_of_error (Exec.execute_load_unwritten ((hslots slot).trans hnone))⟩
  arrayLoad hat hstep := by
    obtain ⟨control, act, heffect, rfl⟩ := hat.effect hstep
    cases heffect with
    | arrayLoad hstack hn hentry hpos hitem =>
      exact ⟨_, _, _, _, _, hstack, hn, hpos, ((h.items _ _ _ hentry).2 _).symm.trans hitem, rfl⟩
  get hat hstep := by
    obtain ⟨control, act, heffect, rfl⟩ := hat.effect hstep
    cases heffect with
    | getField hstack hentry hget => exact ⟨_, _, _, hstack, (h.fields _ _ _ hentry _).symm.trans hget, rfl⟩
  null hindexes hn := hindexes.null hn
  bounds hindexes hn hentry := hindexes.bounds hn hentry

end

/-- Every machine that a run from a method, arguments and an image reaches has a history,
which begins with the arguments and is told step by step; what the next instruction
reads is what this history last set, and no event elsewhere changes what it last set. -/
theorem reads_see_last_write {image : Image} {method : MethodId} {values : List Value} {k : Nat} {machine : Machine}
    (hreaches : Reaches ⟨State.initial method values, .ofImage image⟩ k machine) :
    ∃ past, Recorded ⟨State.initial method values, .ofImage image⟩ (.initial values) k past machine ∧
      machine.ReadsLast image past ∧ past.Apart image := by
  obtain ⟨past, hpast⟩ := hreaches.recorded (.initial values)
  have hfirst := State.remembers_initial image method values
  have hremembers := hpast.remembers hfirst (Store.faithful_ofImage image).knows
  exact ⟨past, hpast, hremembers.readsLast, past.apart image⟩

namespace Sample

/-- From an array of integers to nothing. -/
def overwrite : MethodId := ⟨"Sample", "overwrite", [.array (.primitive .int)], none⟩

/-- Stores 5 as the first item. -/
def overwriteCode : Code := #[.load .ref 0, .push (.int 0), .push (.int 5), .arrayStore (.primitive .int), .return none]

/-- Reads the first item of its argument after a call. -/
def rereadCode : Code := #[.load .ref 0, .invoke .static overwrite, .load .ref 0, .push (.int 0),
  .arrayLoad (.primitive .int), .return (some .int)]

def rereadImage : Image :=
  .registry ((Registry.empty.addMethod overwrite overwriteCode).addMethod (method "reread") rereadCode)

/-- A frame of a method at an offset, with the reference to the array in its slot. -/
def holding (m : MethodId) (offset : Int) (stack : OperandStack) : Frame :=
  ⟨⟨m, .int offset⟩, [(.int 0, operand)], stack⟩

/-- In the first method, before the call. -/
def rereading (offset : Int) (stack : OperandStack) : Machine :=
  ⟨⟨⟨#[.array (.primitive .int) [.int 7]]⟩, [holding (method "reread") offset stack], []⟩,
    ⟨rereadImage, [((method "reread").text, rereadCode)], []⟩⟩

/-- In the called method, over the one that waits, with an item in the array. -/
def overwriting (item : Int) (offset : Int) (stack : OperandStack) : Machine :=
  ⟨⟨⟨#[.array (.primitive .int) [.int item]]⟩, [holding overwrite offset stack, holding (method "reread") 1 []], []⟩,
    ⟨rereadImage, [((method "reread").text, rereadCode), (overwrite.text, overwriteCode)], []⟩⟩

/-- In the first method, after the call. -/
def reread (offset : Int) (stack : OperandStack) : Machine :=
  { overwriting 5 4 [] with
    state := { (overwriting 5 4 []).state with frames := [holding (method "reread") offset stack] } }

end Sample

open Sample in
/-- What a called method stores in an array, its caller reads from it. -/
theorem caller_reads_store : ∃ past,
    Reaches ⟨State.initial (method "reread") [.array (.primitive .int) [.int 7]], .ofImage rereadImage⟩ 9
      (reread 4 [.int 0, operand]) ∧
    (reread 4 [.int 0, operand]).ReadsLast rereadImage past ∧ past.item? (.int 0) 0 = some (.int 5) := by
  let first : Machine := ⟨State.initial (method "reread") [.array (.primitive .int) [.int 7]], .ofImage rereadImage⟩
  have hload : step first = .next .stay (rereading 1 [operand]) := rfl
  have hcall : step (rereading 1 [operand]) =
      .next .enter { overwriting 7 0 [] with store := (rereading 0 []).store } := rfl
  have harray : step { overwriting 7 0 [] with store := (rereading 0 []).store } =
      .next .stay (overwriting 7 1 [operand]) := rfl
  have hindex : step (overwriting 7 1 [operand]) = .next .stay (overwriting 7 2 [.int 0, operand]) := rfl
  have hvalue : step (overwriting 7 2 [.int 0, operand]) =
      .next .stay (overwriting 7 3 [.int 5, .int 0, operand]) := rfl
  have hstore : step (overwriting 7 3 [.int 5, .int 0, operand]) = .next .stay (overwriting 5 4 []) := rfl
  have hleave : step (overwriting 5 4 []) = .next .leave (reread 2 []) := rfl
  have harray' : step (reread 2 []) = .next .stay (reread 3 [operand]) := rfl
  have hindex' : step (reread 3 [operand]) = .next .stay (reread 4 [.int 0, operand]) := rfl
  have hread : step (reread 4 [.int 0, operand]) = .next .stay (reread 5 [.int 5]) := rfl
  have hcalled := ((Reaches.refl.step hload).step hcall).step harray
  have hreaches := (((((hcalled.step hindex).step hvalue).step hstore).step hleave).step harray').step hindex'
  obtain ⟨past, -, hreads, -⟩ := reads_see_last_write hreaches
  obtain ⟨_, _, _, _, _, hstack, hn, -, hitem, hpushed⟩ := hreads.arrayLoad ⟨rfl, rfl⟩ hread
  cases hstack
  cases hn
  cases hpushed
  exact ⟨past, hreaches, hreads, hitem⟩

end Bytecode
