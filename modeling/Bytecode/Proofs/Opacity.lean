import Bytecode.Proofs.Context
import Bytecode.Proofs.Equivariance
import Bytecode.Proofs.Reference
import Mathlib.Logic.Equiv.Basic
/-!
# Where keys are opaque

A step of a machine with its keys renamed is the step of the machine, renamed,
unless the step compares a number with a key and goes another way because of it
(`keys_are_opaque_iff`). The comparisons of a branch see of a reference nothing
but its key, and of a scalar nothing but its number, so the number 0 is equal to
the first key that a heap gives out.
-/
namespace Bytecode

section Definitions

variable {bound : Nat} (p : Renaming bound)

def State.rename (state : State) : State :=
  ⟨state.heap.rename p, state.frames.map (Frame.rename p), Table.mapValues (Value.rename p) state.statics⟩

def Machine.rename (machine : Machine) : Machine := { machine with state := machine.state.rename p }

def StepResult.rename : StepResult → StepResult
  | .next move machine => .next move (machine.rename p)
  | .halt outcome returned machine => .halt outcome (returned.map (Value.rename p)) (machine.rename p)
  | .fault f machine => .fault (f.rename p) (machine.rename p)

/-- The innermost frame is at a branch to the target that asks whether a number and a key are the
same, which the renaming changes. -/
inductive Machine.Clashes (machine : Machine) (frame : Frame) (target : Int) : Prop
  | intro {callers condition store right left rest} : machine.At frame callers (.branch condition target) store →
      condition.isOrdering = false → frame.stack = right :: left :: rest →
      left.Clashes p right ∨ right.Clashes p left → Clashes machine frame target

/-- The step compares a number with a key and goes another way when the key is renamed. -/
def Machine.Confuses (machine : Machine) : Prop :=
  ∃ frame target, machine.Clashes p frame target ∧ frame.pc.jump (.int target) ≠ frame.pc.advance (.int 1)

end Definitions

section

variable {bound : Nat} {p : Renaming bound}

/-! ## Control -/

theorem Control.apply_rename (act : Activation) (callers : List Frame) (control : Control) :
    (control.rename p).apply (act.rename p) (callers.map (Frame.rename p)) = (control.apply act callers).rename p := by
  cases control with
  | leave returned =>
    cases callers with
    | nil => rfl
    | cons caller callers => cases returned <;> rfl
  | _ => rfl

theorem Stop.apply_rename (act : Activation) (callers : List Frame) (stop : Stop) :
    (stop.rename p).apply (act.rename p) (callers.map (Frame.rename p)) = (stop.apply act callers).rename p := by
  cases stop <;> rfl

/-- Where a branch goes on in its method. -/
def ProgramCounter.branched (taken : Bool) (target : Int) (pc : ProgramCounter) : ProgramCounter :=
  if taken then pc.jump (.int target) else pc.advance (.int 1)

theorem branchTo_apply (taken : Bool) (target : Int) (act : Activation) (callers : List Frame) :
    (branchTo taken target).apply act callers =
      .next .stay (act.machine ({ act.frame with pc := act.frame.pc.branched taken target } :: callers)) := by
  cases taken <;> rfl

theorem ProgramCounter.branched_eq_iff {taken taken' : Bool} (h : taken ≠ taken') (target : Int) (pc : ProgramCounter) :
    pc.branched taken target = pc.branched taken' target ↔ pc.jump (.int target) = pc.advance (.int 1) := by
  cases taken <;> cases taken'
  · exact absurd rfl h
  · exact eq_comm
  · exact Iff.rfl
  · exact absurd rfl h

/-! ## One step -/

theorem Machine.At.rename {machine : Machine} {frame : Frame} {callers : List Frame} {i : Instruction} {store : Store}
    (h : machine.At frame callers i store) :
    (machine.rename p).At (frame.rename p) (callers.map (Frame.rename p)) i store where
  frames := congrArg (List.map (Frame.rename p)) h.frames
  fetched := h.fetched

/-- Without a clash, the step of the renamed machine is the step renamed. -/
theorem step_rename {machine : Machine} (hstore : machine.store.Decoded) (hb : bound ≤ machine.state.heap.size)
    (hclear : ∀ frame target, ¬machine.Clashes p frame target) :
    step (machine.rename p) = (step machine).rename p := by
  cases hframes : machine.state.frames with
  | nil =>
    have hframes' : (machine.rename p).state.frames = [] := congrArg (List.map (Frame.rename p)) hframes
    simp only [step, hframes, hframes']
    rfl
  | cons frame callers =>
    cases hfetch : Store.fetch frame.pc machine.store with
    | error fault store =>
      have hframes' : (machine.rename p).state.frames = frame.rename p :: callers.map (Frame.rename p) :=
        congrArg (List.map (Frame.rename p)) hframes
      have hfetch' : Store.fetch (frame.rename p).pc (machine.rename p).store = .error fault store := hfetch
      -- A fetch fails before any key is looked at.
      have hfault : fault.rename p = fault := by
        rcases hstore.fault_of_fetch hfetch with himage | ⟨length, rfl⟩
        · exact himage.rename_eq
        · rfl
      rw [step_cons hframes, step_cons hframes', hfetch, hfetch']
      change StepResult.fault _ _ = StepResult.fault _ _
      rw [hfault]
      rfl
    | ok i store =>
      have hat : machine.At frame callers i store := ⟨hframes, hfetch⟩
      have hrenames : Exec.Renames p (Control.rename p) (execute i) (execute i)
          ⟨frame, machine.state.heap, machine.state.statics, store⟩ := by
        refine Exec.execute_renames i (hstore.plain_of_fetch hfetch) ?_
        rintro condition target rfl hordering right left rest hstack
        exact not_or.1 fun hclash => hclear frame target (.intro hat hordering hstack hclash)
      rcases (hrenames hb).cases with
        ⟨control, act, _, _, hone, htwo, rfl, hacts⟩ | ⟨stop, act, _, _, hone, htwo, rfl, hacts⟩
      · obtain ⟨-, rfl⟩ := hacts
        rw [hat.step_of_ok hone, hat.rename.step_of_ok htwo, Control.apply_rename]
      · obtain ⟨-, rfl⟩ := hacts
        rw [hat.step_of_error hone, hat.rename.step_of_error htwo, Stop.apply_rename]

/-- A branch takes both operands and goes where their comparison sends it. -/
theorem Exec.execute_branch {condition : Condition} {target : Int} {act : Activation} {right left : Value}
    {rest : OperandStack} {a b : Option Number} {taken : Bool} (hstack : act.frame.stack = right :: left :: rest)
    (ha : Compares condition left a) (hb : Compares condition right b)
    (hcompare : condition.compare a b act.frame.pc.text = .ok taken) :
    execute (.branch condition target) act = .ok (branchTo taken target) (act.withStack rest) := by
  have hpop : pop act = .ok right (act.withStack (left :: rest)) := pop_eq_ok.2 ⟨_, hstack, rfl⟩
  have hright : comparand condition right (act.withStack (left :: rest)) = .ok b _ := comparand_eq_ok.2 ⟨hb, rfl⟩
  have hpop' : pop (act.withStack (left :: rest)) = .ok left (act.withStack rest) := pop_eq_ok.2 ⟨rest, rfl, rfl⟩
  have hleft : comparand condition left (act.withStack rest) = .ok a _ := comparand_eq_ok.2 ⟨ha, rfl⟩
  simp only [execute, branch]
  rw [bind_of_ok hpop, bind_of_ok hright, bind_of_ok hpop', bind_of_ok hleft]
  exact decideJump_eq_ok.2 ⟨_, hcompare, rfl, rfl⟩

theorem Compares.rename {condition : Condition} {v : Value} {x : Option Number} (h : Compares condition v x) :
    Compares condition (v.rename p) (v.renameComparand p x) := by
  cases h with
  | scalar hn =>
    rw [Value.renameComparand_of_toInt? hn]
    exact .scalar ((Value.toInt?_rename _).trans hn)
  | reference ref hordering => exact .reference _ hordering

/-- The operands of a clash are compared, and after the renaming the other way. -/
theorem Value.Clashes.compares {condition : Condition} (hordering : condition.isOrdering = false) {left right : Value}
    (h : left.Clashes p right ∨ right.Clashes p left) :
    ∃ a b, Compares condition left a ∧ Compares condition right b ∧
      Value.sameKey (left.renameComparand p a) (right.renameComparand p b) ≠ Value.sameKey a b := by
  have hsides : ∀ {v w : Value}, v.Clashes p w → ∃ n key, Compares condition v (some (.int n)) ∧
      Compares condition w (some key) ∧ v.renameComparand p (some (.int n)) = some (.int n) ∧
      w.renameComparand p (some key) = some (key.rename p) ∧ ¬(key.rename p = .int n ↔ key = .int n) := by
    rintro v w ⟨n, key, hn, rfl, hne⟩
    refine ⟨n, key, .scalar hn, .reference _ hordering, Value.renameComparand_of_toInt? hn _, rfl, ?_⟩
    exact fun hiff => hne hiff.symm
  rcases h with h | h
  · obtain ⟨n, key, ha, hb, hsame, hsame', hne⟩ := hsides h
    refine ⟨_, _, ha, hb, ?_⟩
    rw [hsame, hsame', Value.sameKey_int_left, Value.sameKey_int_left, Ne, decide_eq_decide]
    exact hne
  · obtain ⟨n, key, hb, ha, hsame, hsame', hne⟩ := hsides h
    refine ⟨_, _, ha, hb, ?_⟩
    rw [hsame, hsame', Value.sameKey_int_right, Value.sameKey_int_right, Ne, decide_eq_decide]
    exact hne

/-- In a clash, one of the two steps jumps and the other one does not. -/
theorem Machine.Clashes.step_rename_iff {machine : Machine} {frame : Frame} {target : Int}
    (h : machine.Clashes p frame target) :
    step (machine.rename p) = (step machine).rename p ↔ frame.pc.jump (.int target) = frame.pc.advance (.int 1) := by
  obtain @⟨callers, condition, store, right, left, rest, hat, hordering, hstack, hclash⟩ := h
  obtain ⟨a, b, ha, hb, hne⟩ := Value.Clashes.compares hordering hclash
  have hstack' : (frame.rename p).stack = right.rename p :: left.rename p :: rest.map (Value.rename p) :=
    congrArg (List.map (Value.rename p)) hstack
  rw [hat.step_of_ok (Exec.execute_branch hstack ha hb (Condition.compare_of_identity hordering _ _ _)),
    hat.rename.step_of_ok
      (Exec.execute_branch hstack' ha.rename hb.rename (Condition.compare_of_identity hordering _ _ _)),
    branchTo_apply, branchTo_apply]
  have htaken : condition.ofIdentity (Value.sameKey (left.renameComparand p a) (right.renameComparand p b)) ≠
      condition.ofIdentity (Value.sameKey a b) := fun htaken => hne (Condition.ofIdentity_inj.1 htaken)
  -- The two results agree in everything but the program counter of the innermost frame.
  let going (pc : ProgramCounter) : StepResult :=
    .next .stay ⟨⟨machine.state.heap.rename p,
      ⟨pc, Table.mapValues (Value.rename p) frame.locals, rest.map (Value.rename p)⟩ :: callers.map (Frame.rename p),
      Table.mapValues (Value.rename p) machine.state.statics⟩, store⟩
  have hgoing : ∀ pc pc', going pc = going pc' ↔ pc = pc' := by
    intro pc pc'
    simp [going]
  exact (hgoing _ _).trans (ProgramCounter.branched_eq_iff htaken target frame.pc)

/-- A step does not see the names of keys if and only if it does not confuse a key with a number. -/
theorem step_rename_iff {machine : Machine} (hstore : machine.store.Decoded) (hb : bound ≤ machine.state.heap.size) :
    step (machine.rename p) = (step machine).rename p ↔ ¬machine.Confuses p := by
  constructor
  · rintro hsame ⟨frame, target, hclash, hne⟩
    exact hne (hclash.step_rename_iff.1 hsame)
  · intro hsure
    by_cases hclash : ∃ frame target, machine.Clashes p frame target
    · obtain ⟨frame, target, hclash⟩ := hclash
      refine hclash.step_rename_iff.2 (Classical.byContradiction fun hne => hsure ?_)
      exact ⟨frame, target, hclash, hne⟩
    · exact step_rename hstore hb fun frame target h => hclash ⟨frame, target, h⟩

/-! ## Runs -/

theorem Store.Decoded.reaches {first last : Machine} {k : Nat} (h : first.store.Decoded)
    (hreaches : Reaches first k last) : last.store.Decoded :=
  hreaches.keeps_store (fun className _ hs => hs.classInfo className) (fun pc _ hs => hs.fetch pc) h

theorem Reaches.heap_size_le {first last : Machine} {k : Nat} (h : Reaches first k last) :
    first.state.heap.size ≤ last.state.heap.size := by
  refine h.keeps (I := fun machine => first.state.heap.size ≤ machine.state.heap.size) ?_ (Nat.le_refl _)
  intro machine move next hstep hle
  obtain ⟨_, _, _, _, _, _, -, -, heffect, rfl, -⟩ := completed_of_next hstep
  exact Nat.le_trans hle heffect.heap_size_le

/-- The step of a run that confuses no key with a number, taken after the renaming. -/
theorem Reaches.step_rename {first last : Machine} {k : Nat} (hstore : first.store.Decoded)
    (hb : bound ≤ first.state.heap.size)
    (hclear : ∀ j < k + 1, ∀ machine, Reaches first j machine → ¬machine.Confuses p) (h : Reaches first k last) :
    Bytecode.step (last.rename p) = (Bytecode.step last).rename p :=
  (step_rename_iff (hstore.reaches h) (Nat.le_trans hb h.heap_size_le)).2 (hclear k (Nat.lt_succ_self k) last h)

/-- All steps of a run that confuses no key with a number, taken after the renaming. -/
theorem Reaches.rename {first last : Machine} {k : Nat} (hstore : first.store.Decoded)
    (hb : bound ≤ first.state.heap.size)
    (hclear : ∀ j < k, ∀ machine, Reaches first j machine → ¬machine.Confuses p) (h : Reaches first k last) :
    Reaches (first.rename p) k (last.rename p) := by
  induction h with
  | refl => exact .refl
  | step hbefore hstep ih =>
    have hsame := hbefore.step_rename hstore hb hclear
    rw [hstep] at hsame
    exact (ih fun j hj => hclear j (Nat.lt_succ_of_lt hj)).step hsame

/-- Over decoded code, for any permutation of the keys of a machine's heap: the step of
the renamed machine is the step of the machine with its result renamed, if and only
if it does not confuse a key with a number, that is branch on whether they are the
same, with another answer before and after the renaming. A run in which no step does
so reaches, after the renaming, the renamed machines, with the same outcome and the
renamed value at its end, or fails with a fault of the same family. -/
theorem keys_are_opaque_iff {machine : Machine} (hstore : machine.store.Decoded)
    (p : Renaming machine.state.heap.size) :
    (step (machine.rename p) = (step machine).rename p ↔ ¬machine.Confuses p) ∧
    ∀ k, (∀ j < k, ∀ between, Reaches machine j between → ¬between.Confuses p) →
      (∀ last, Reaches machine k last → Reaches (machine.rename p) k (last.rename p)) ∧
      (∀ outcome returned left, Halts machine k outcome returned left →
        Halts (machine.rename p) k outcome (returned.map (Value.rename p)) (left.rename p)) ∧
      (∀ fault left, Faults machine k fault left →
        ∃ fault', fault'.label = fault.label ∧ Faults (machine.rename p) k fault' (left.rename p)) := by
  refine ⟨step_rename_iff hstore (Nat.le_refl _), fun k hclear => ⟨?_, ?_, ?_⟩⟩
  · intro last hlast
    exact hlast.rename hstore (Nat.le_refl _) hclear
  · rintro outcome returned left ⟨j, last, rfl, hlast, hhalt⟩
    have hsame := hlast.step_rename hstore (Nat.le_refl _) hclear
    rw [hhalt] at hsame
    exact ⟨j, _, rfl, hlast.rename hstore (Nat.le_refl _) fun i hi => hclear i (Nat.lt_succ_of_lt hi), hsame⟩
  · rintro fault left ⟨j, last, rfl, hlast, hfault⟩
    have hsame := hlast.step_rename hstore (Nat.le_refl _) hclear
    rw [hfault] at hsame
    exact ⟨fault.rename p, fault.label_rename, j, _, rfl,
      hlast.rename hstore (Nat.le_refl _) fun i hi => hclear i (Nat.lt_succ_of_lt hi), hsame⟩

end

namespace Sample

/-- From references and numbers alike to nothing. -/
def meet : MethodId := ⟨"Sample", "meet", [], none⟩

/-- Branches on whether its operands are the same. -/
def meetCode : Code := #[.branch .eq 2, .return none, .return none]

def meetImage : Image := .registry (Registry.empty.addMethod meet meetCode)

theorem decoded_meetImage : meetImage.Decoded := by
  refine Image.decoded_registry fun code hcode => ?_
  have hcodes : code ∈ [meetCode] := hcode
  obtain rfl := List.mem_singleton.1 hcodes
  exact ⟨[record "if" [("condition", .string "eq"), ("target", .number (.int 2))], record "return" [],
    record "return" []], rfl⟩

/-- Before the branch, with two arrays on the heap. -/
def meeting (left right : Value) : Machine :=
  ⟨⟨⟨#[.array (.primitive .int) [], .array (.primitive .int) []]⟩, [⟨.start meet, [], [right, left]⟩], []⟩,
    .ofImage meetImage⟩

/-- The keys of the two arrays change places. -/
def swapped : Renaming 2 where
  perm := Equiv.swap 0 1
  fixes key hkey := Equiv.swap_apply_of_ne_of_ne (by omega) (by omega)

/-- A reference to the other one. -/
def other : Value := .reference (some (.int 1))

end Sample

open Sample in
/-- Two references are as different after their keys changed places as they were before. -/
theorem references_stay_different :
    step ((meeting operand other).rename swapped) = (step (meeting operand other)).rename swapped := by
  have hstore : (meeting operand other).store.Decoded := Store.decoded_ofImage decoded_meetImage
  refine ((keys_are_opaque_iff hstore swapped).1).2 ?_
  rintro ⟨frame, target, ⟨hat, -, hstack, hclash⟩, -⟩
  obtain ⟨rfl, rfl⟩ := List.cons.inj hat.frames
  -- Neither operand is a number.
  cases hstack
  rcases hclash with ⟨n, -, hn, -⟩ | ⟨n, -, hn, -⟩ <;> cases hn

open Sample in
/-- The number 0 is the same as the reference to the first entry, and no longer so when the
entries change places. -/
theorem number_is_confused_with_key : (meeting (.int 0) operand).store.Decoded ∧
    (meeting (.int 0) operand).state.All (Value.LiveIn (meeting (.int 0) operand).state.heap) ∧
    step ((meeting (.int 0) operand).rename swapped) ≠ (step (meeting (.int 0) operand)).rename swapped := by
  refine ⟨Store.decoded_ofImage decoded_meetImage, ⟨?_, ?_, ?_⟩, fun hsame => ?_⟩
  · refine List.forall_mem_singleton.2 ⟨fun entry hentry => absurd hentry List.not_mem_nil, ?_⟩
    have hkey : Value.LiveIn (meeting (.int 0) operand).state.heap operand := .inr (.inr ⟨.int 0, rfl, rfl⟩)
    exact List.forall_mem_cons.2 ⟨hkey, List.forall_mem_singleton.2 (.inl rfl)⟩
  · intro entry hentry
    have hentries : ∀ v ∈ [Value.array (.primitive .int) [], .array (.primitive .int) []],
        v = .array (.primitive .int) [] := by simp
    obtain rfl := hentries entry (Array.mem_toList_iff.2 hentry)
    exact .array _ fun v hv => absurd hv List.not_mem_nil
  · exact fun entry hentry => absurd hentry List.not_mem_nil
  · have hoffsets := congrArg (fun result => result.machine.state.frames.map (·.pc.offset)) hsame
    have hstays : (step ((meeting (.int 0) operand).rename swapped)).machine.state.frames.map (·.pc.offset) =
        [.int 1] := rfl
    have hjumps : ((step (meeting (.int 0) operand)).rename swapped).machine.state.frames.map (·.pc.offset) =
        [.int 2] := rfl
    exact absurd (hstays.symm.trans (hoffsets.trans hjumps)) (by decide)

end Bytecode
