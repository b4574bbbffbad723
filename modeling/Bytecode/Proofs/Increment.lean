import Bytecode.Instruction.Record
import Bytecode.Proofs.Range
/-!
# Incrementing a local

`incr` adds to a local slot without the operand stack. The long way round loads the
local, pushes the amount as a constant, adds and stores. Both read the same slot and fail
alike where it holds no number. They wrap at different points, though: `incr` takes the sum
in floating point before it keeps the low 32 bits, and the constant loses its high bits
before it is added. `incr_agrees_iff` says for which sums that shows.
-/
namespace Bytecode

/-! ## Performing instructions -/

namespace Machine

/-- The activation of a frame of the machine. -/
def activation (machine : Machine) (frame : Frame) : Activation :=
  ⟨frame, machine.state.heap, machine.state.statics, machine.store⟩

/-- What a step does with an instruction that it has fetched. -/
def perform (i : Instruction) (machine : Machine) : StepResult :=
  match machine.state.frames with
  | [] => .fault (.malformed .callStackEmpty) machine
  | frame :: callers =>
    match execute i (machine.activation frame) with
    | .ok control act => control.apply act callers
    | .error stop act => stop.apply act callers

/-- The machine with other frames. -/
def withFrames (frames : List Frame) (machine : Machine) : Machine :=
  { machine with state := { machine.state with frames } }

/-- Performs instructions one after the other, for as long as the machine goes on. -/
def performAll : List Instruction → Machine → StepResult
  | [], machine => .next .stay machine
  | i :: rest, machine =>
    match perform i machine with
    | .next _ machine => performAll rest machine
    | result => result

variable {machine : Machine} {frame : Frame} {callers : List Frame} {i : Instruction} {rest : List Instruction}
  {act : Activation} {fault : Fault}

/-- A step performs the instruction that the machine is at. -/
theorem At.step_eq_perform {store : Store} (h : machine.At frame callers i store) :
    step machine = perform i { machine with store } := by
  rw [step_cons h.frames, h.fetched, perform]
  simp only [h.frames]
  rfl

theorem perform_of_ok {control : Control} (hframes : machine.state.frames = frame :: callers)
    (h : execute i (machine.activation frame) = .ok control act) : perform i machine = control.apply act callers := by
  rw [perform, hframes]
  simp only [h]

theorem perform_of_next (hframes : machine.state.frames = frame :: callers)
    (h : execute i (machine.activation frame) = .ok .next act) :
    perform i machine = .next .stay (act.machine (act.frame.advance (.int 1) :: callers)) := perform_of_ok hframes h

theorem perform_of_error {stop : Stop} (hframes : machine.state.frames = frame :: callers)
    (h : execute i (machine.activation frame) = .error stop act) : perform i machine = stop.apply act callers := by
  rw [perform, hframes]
  simp only [h]

theorem perform_of_fault (hframes : machine.state.frames = frame :: callers)
    (h : execute i (machine.activation frame) = .error (.fault fault) (machine.activation frame)) :
    perform i machine = .fault fault machine := by
  rw [perform_of_error hframes h]
  rcases machine with ⟨⟨heap, frames, statics⟩, store⟩
  cases hframes
  rfl

theorem performAll_of_next (hframes : machine.state.frames = frame :: callers)
    (h : execute i (machine.activation frame) = .ok .next act) :
    performAll (i :: rest) machine = performAll rest (act.machine (act.frame.advance (.int 1) :: callers)) := by
  rw [performAll, perform_of_next hframes h]

theorem performAll_of_fault (h : perform i machine = .fault fault machine) :
    performAll (i :: rest) machine = .fault fault machine := by
  rw [performAll, h]

end Machine

/-! ## The number in a slot -/

/-- The number that an int-like value in a slot stands for, or the fault of reading it. -/
def Frame.number (slot : Int) (frame : Frame) : Except Fault Int :=
  match frame.load (.int slot) with
  | .error fault => .error fault
  | .ok v =>
    match v.toInt? with
    | some n => .ok n
    | none => .error (.mistyped "int" v.kind frame.pc.text)

theorem Frame.number_eq_ok {slot n : Int} {frame : Frame} :
    frame.number slot = .ok n ↔ ∃ v, frame.load (.int slot) = .ok v ∧ v.toInt? = some n := by
  unfold number
  cases frame.load (.int slot) with
  | error fault => simp
  | ok v => cases hn : v.toInt? <;> simp [hn]

theorem Frame.number_eq_error {slot : Int} {frame : Frame} {fault : Fault} :
    frame.number slot = .error fault ↔ frame.load (.int slot) = .error fault ∨
      ∃ v, frame.load (.int slot) = .ok v ∧ v.toInt? = none ∧ .mistyped "int" v.kind frame.pc.text = fault := by
  unfold number
  cases frame.load (.int slot) with
  | error fault => simp
  | ok v => cases hn : v.toInt? <;> simp [hn]

theorem Frame.label_of_number {slot : Int} {frame : Frame} {fault : Fault} (h : frame.number slot = .error fault) :
    fault.label = "UninitializedLocalError" ∨ fault.label = "TypeAssertionError" := by
  rcases number_eq_error.1 h with hload | ⟨v, -, -, rfl⟩
  · unfold load at hload
    split at hload
    · cases hload
    · cases hload
      exact .inl rfl
  · exact .inr rfl

/-! ## The two ways -/

/-- Loads a local, adds the constant of an amount to it and stores the sum. -/
def Instruction.longWay (slot amount : Int) : List Instruction :=
  [.load .int slot, .push (.ofConstant .int (.number (.int amount))), .binary .add, .store .int slot]

/-- The records of the long way. -/
def Instruction.longRecords (slot amount : Int) : List Json :=
  [.object [("opr", .string "load"), ("type", .string "int"), ("index", .number (.int slot))],
    .object [("opr", .string "push"),
      ("value", .object [("type", .string "int"), ("value", .number (.int amount))])],
    .object [("opr", .string "binary"), ("type", .string "int"), ("operant", .string "add")],
    .object [("opr", .string "store"), ("type", .string "int"), ("index", .number (.int slot))]]

theorem Instruction.longRecords_decoded (slot amount : Int) :
    Code.ofJson (longRecords slot amount) = .ok (longWay slot amount).toArray := rfl

namespace Exec

variable {act : Activation} {slot amount n m : Int} {v w : Value} {rest : OperandStack} {fault : Fault}

theorem execute_incr (h : act.frame.number slot = .ok n) :
    execute (.incr slot amount) act =
      .ok .next (act.withLocal slot (.narrow .int (Number.nearestInt (n + amount)))) := by
  obtain ⟨v, hload, hn⟩ := Frame.number_eq_ok.1 h
  have hload' : orRaise (act.frame.load (.int slot)) act = .ok v act := orRaise_eq_ok.2 ⟨hload, rfl⟩
  have hint : expectInt v act = .ok n act := expectInt_eq_ok.2 ⟨hn, rfl⟩
  change (orRaise (act.frame.load (.int slot)) >>= fun v => expectInt v >>= _) act = _
  rw [bind_of_ok hload', bind_of_ok hint]
  rfl

theorem execute_incr_fault (h : act.frame.number slot = .error fault) :
    execute (.incr slot amount) act = .error (.fault fault) act := by
  change (orRaise (act.frame.load (.int slot)) >>= fun v => expectInt v >>= _) act = _
  rcases Frame.number_eq_error.1 h with hload | ⟨v, hload, hn, rfl⟩
  · rw [hload]
    rfl
  · have hload' : orRaise (act.frame.load (.int slot)) act = .ok v act := orRaise_eq_ok.2 ⟨hload, rfl⟩
    rw [bind_of_ok hload', expectInt, hn]
    rfl

theorem execute_load (hload : act.frame.load (.int slot) = .ok v) (hn : v.toInt? = some n) :
    execute (.load .int slot) act = .ok .next (act.withStack (v :: act.frame.stack)) := by
  have hload' : orRaise (act.frame.load (.int slot)) act = .ok v act := orRaise_eq_ok.2 ⟨hload, rfl⟩
  have hfits : expectCategory .int v act = .ok v act := expectCategory_eq_ok.2 ⟨by simp [fits, hn], rfl, rfl⟩
  change (orRaise (act.frame.load (.int slot)) >>= fun v => expectCategory .int v >>= _) act = _
  rw [bind_of_ok hload', bind_of_ok hfits]
  rfl

theorem execute_load_fault (h : act.frame.number slot = .error fault) :
    execute (.load .int slot) act = .error (.fault fault) act := by
  change (orRaise (act.frame.load (.int slot)) >>= fun v => expectCategory .int v >>= _) act = _
  rcases Frame.number_eq_error.1 h with hload | ⟨v, hload, hn, rfl⟩
  · rw [hload]
    rfl
  · have hload' : orRaise (act.frame.load (.int slot)) act = .ok v act := orRaise_eq_ok.2 ⟨hload, rfl⟩
    have hfits : ¬fits .int v = true := by simp [fits, hn]
    rw [bind_of_ok hload', expectCategory, if_neg hfits]
    rfl

theorem execute_add (hstack : act.frame.stack = w :: v :: rest) (hv : v.toInt? = some n) (hw : w.toInt? = some m) :
    execute (.binary .add) act =
      .ok .next (act.withStack (.narrow .int (Word.signed 32 (Number.nearestInt (n + m))) :: rest)) := by
  have hright : popInt act = .ok m (act.withStack (v :: rest)) := popInt_eq_ok.2 ⟨w, _, hstack, hw, rfl⟩
  have hleft : popInt (act.withStack (v :: rest)) = .ok n (act.withStack rest) := popInt_eq_ok.2 ⟨v, _, rfl, hv, rfl⟩
  simp only [execute, binary]
  rw [bind_of_ok hright, bind_of_ok hleft]
  rfl

theorem execute_store (hstack : act.frame.stack = v :: rest) (hv : v.toInt? = some n) :
    execute (.store .int slot) act = .ok .next ((act.withStack rest).withLocal slot v) := by
  have hpop : pop act = .ok v (act.withStack rest) := pop_eq_ok.2 ⟨rest, hstack, rfl⟩
  have hfits : expectCategory .int v (act.withStack rest) = .ok v (act.withStack rest) :=
    expectCategory_eq_ok.2 ⟨by simp [fits, hv], rfl, rfl⟩
  simp only [execute]
  rw [bind_of_ok hpop, bind_of_ok hfits]
  rfl

end Exec

/-! ## Where both wrap -/

/-- The sum that is taken in one go has the same low bits as the sum with the amount that has been wrapped. -/
def WrapsAlike (n amount : Int) : Prop :=
  Word.signed 32 (Number.nearestInt (n + amount)) = Word.signed 32 (Number.nearestInt (n + Word.signed 32 amount))

/-- To an int: rounding the sum leaves its low bits as they are. -/
theorem wrapsAlike_iff {n amount : Int} (h : (Value.int n).InRange) :
    WrapsAlike n amount ↔ Word.signed 32 (Number.nearestInt (n + amount)) = Word.signed 32 (n + amount) := by
  have hamount : (Value.int (Word.signed 32 amount)).InRange :=
    Value.narrow_int amount ▸ Value.inRange_narrow .int amount
  have hpow : pow2 53 = 9007199254740992 := by decide
  simp only [Value.InRange] at h hamount
  have hsmall : (n + Word.signed 32 amount).natAbs ≤ pow2 53 := by omega
  rw [WrapsAlike, Number.nearestInt_of_natAbs_le hsmall]
  simp only [Word.signed, Int.add_bmod_bmod]

/-- Sums of at most 53 bits are exact. -/
theorem wrapsAlike_of_natAbs_le {n amount : Int} (h : (Value.int n).InRange) (hsum : (n + amount).natAbs ≤ pow2 53) :
    WrapsAlike n amount := by
  rw [wrapsAlike_iff h, Number.nearestInt_of_natAbs_le hsum]

/-- Frames that differ in what they store in a slot have the same locals if and only if they store the same. -/
theorem Frame.locals_store_eq_iff {slot : Number} {v w : Value} {frame : Frame} :
    (frame.store slot v).locals = (frame.store slot w).locals ↔ v = w := by
  constructor
  · intro h
    have hget := congrArg (Table.get? slot) h
    simpa [store] using hget
  · rintro rfl
    rfl

theorem narrow_eq_iff_wrapsAlike {n amount : Int} :
    Value.narrow .int (Number.nearestInt (n + amount)) =
        .narrow .int (Word.signed 32 (Number.nearestInt (n + Word.signed 32 amount))) ↔ WrapsAlike n amount := by
  rw [Value.narrow_int, Value.narrow_int, Word.signed_signed (Nat.le_refl 32), Value.int.injEq, WrapsAlike]

/-! ## Both ways -/

section Ways

variable {machine : Machine} {frame : Frame} {callers : List Frame} {slot n : Int}

/-- What the long way leaves in the slot. -/
theorem performAll_longWay (hframes : machine.state.frames = frame :: callers) (hnumber : frame.number slot = .ok n)
    (amount : Int) : ∃ pc, machine.performAll (Instruction.longWay slot amount) = .next .stay (machine.withFrames
      ({ frame.store (.int slot)
          (.narrow .int (Word.signed 32 (Number.nearestInt (n + Word.signed 32 amount)))) with pc } :: callers)) := by
  obtain ⟨v, hload, hn⟩ := Frame.number_eq_ok.1 hnumber
  have hconstant : (Value.ofConstant .int (.number (.int amount))).toInt? = some (Word.signed 32 amount) :=
    congrArg Value.toInt? (Value.narrow_int amount)
  rw [Instruction.longWay, Machine.performAll_of_next hframes (Exec.execute_load hload hn),
    Machine.performAll_of_next rfl rfl, Machine.performAll_of_next rfl (Exec.execute_add rfl hn hconstant),
    Machine.performAll_of_next rfl (Exec.execute_store rfl rfl)]
  exact ⟨_, rfl⟩

end Ways

/-- The long way is what its four records decode to. In every state both ways fail alike, leaving the machine as it is,
or both go on with the operands, the heap and the static fields as they were. Then they leave the same locals if and
only if the sums of the two ways have the same low 32 bits. To an int that is in range this means that rounding
leaves the low bits of the sum as they are, and it does if the sum has no more than 53 bits. -/
theorem incr_agrees_iff (machine : Machine) (slot amount : Int) :
    Code.ofJson (Instruction.longRecords slot amount) = .ok (Instruction.longWay slot amount).toArray ∧
    ((∃ fault, machine.perform (.incr slot amount) = .fault fault machine ∧
        machine.performAll (Instruction.longWay slot amount) = .fault fault machine ∧
        (machine.state.frames = [] ∨ fault.label = "UninitializedLocalError" ∨
          fault.label = "TypeAssertionError")) ∨
      ∃ frame callers n short long, machine.state.frames = frame :: callers ∧ frame.number slot = .ok n ∧
        machine.perform (.incr slot amount) = .next .stay (machine.withFrames (short :: callers)) ∧
        machine.performAll (Instruction.longWay slot amount) = .next .stay (machine.withFrames (long :: callers)) ∧
        short.stack = frame.stack ∧ long.stack = frame.stack ∧
        (short.locals = long.locals ↔ WrapsAlike n amount) ∧
        ((Value.int n).InRange →
          (short.locals = long.locals ↔
            Word.signed 32 (Number.nearestInt (n + amount)) = Word.signed 32 (n + amount)) ∧
          ((n + amount).natAbs ≤ pow2 53 → short.locals = long.locals))) := by
  refine ⟨Instruction.longRecords_decoded slot amount, ?_⟩
  cases hframes : machine.state.frames with
  | nil =>
    have hempty : ∀ i, machine.perform i = .fault (.malformed .callStackEmpty) machine := by
      intro i
      rw [Machine.perform, hframes]
    exact .inl ⟨_, hempty _, Machine.performAll_of_fault (hempty _), .inl rfl⟩
  | cons frame callers =>
    cases hnumber : frame.number slot with
    | error fault =>
      have hshort : machine.perform (.incr slot amount) = _ :=
        Machine.perform_of_fault hframes (Exec.execute_incr_fault hnumber)
      have hload := Machine.perform_of_fault hframes (Exec.execute_load_fault hnumber)
      exact .inl ⟨fault, hshort, Machine.performAll_of_fault hload, .inr (Frame.label_of_number hnumber)⟩
    | ok n =>
      have hshort : machine.perform (.incr slot amount) = _ :=
        Machine.perform_of_next hframes (Exec.execute_incr hnumber)
      obtain ⟨pc, hlong⟩ := performAll_longWay hframes hnumber amount
      have hlocals : (frame.store (.int slot) _).locals = (frame.store (.int slot) _).locals ↔ WrapsAlike n amount :=
        Frame.locals_store_eq_iff.trans narrow_eq_iff_wrapsAlike
      refine .inr ⟨frame, callers, n, _, _, rfl, hnumber, hshort, hlong, rfl, rfl, hlocals, fun hrange => ⟨?_, ?_⟩⟩
      · exact hlocals.trans (wrapsAlike_iff hrange)
      · exact fun hsum => hlocals.2 (wrapsAlike_of_natAbs_le hrange hsum)

namespace Sample

def addTo : MethodId := ⟨"Sample", "addTo", [.primitive .int], some (.primitive .int)⟩

/-- A method begins with 1 in its slot. -/
def oneInSlot : Machine := ⟨State.initial addTo [.int 1], .ofImage (.registry .empty)⟩

end Sample

open Sample in
/-- The low bits of 2^53 are zero, so the long way leaves the 1. In floating point 1 and 2^53 make 2^53, and `incr`
leaves 0. -/
theorem incr_rounds_sum :
    (∃ short, oneInSlot.perform (.incr 0 9007199254740992) = .next .stay short ∧
      short.state.frames.map (·.locals) = [[(.int 0, .int 0)]]) ∧
    ∃ long, oneInSlot.performAll (Instruction.longWay 0 9007199254740992) = .next .stay long ∧
      long.state.frames.map (·.locals) = [[(.int 0, .int 1)]] :=
  ⟨⟨_, rfl, rfl⟩, _, rfl, rfl⟩

end Bytecode
