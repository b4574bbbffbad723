import Bytecode.Proofs.Reach
/-!
# A call does not depend on its callers

A machine about to make a call and a machine that has nothing but the fresh
frame of the called method go in lockstep: one step to enter the method, then
the same steps over more callers, until the lone machine ends. If it ends with
`ok` the other one is back in its caller, with heap and static fields as the
lone one left them; if it ends otherwise, so does the other.
-/
namespace Bytecode

/-- The innermost frame rests on a call that will be made: its operands are
there, and the receiver of a call that takes one is not null. -/
structure Calls (image : Image) (state : State) (caller : Frame) (callers : List Frame) (access : Access)
    (method : MethodId) (args : List Value) (rest : OperandStack) : Prop where
  frames : state.frames = caller :: callers
  instruction : answer (Store.fetch caller.pc (.ofImage image)) = .ok (.invoke access method)
  operands : caller.stack = args.reverse ++ rest
  count : args.length = argumentCount access method
  receiver : access ≠ .static → ∃ key, args.head? = some (.reference (some key))
  notRoot : ¬(access = .special ∧ method.isObjectConstructor = true)

namespace Exec

/-- A call with all its operands takes them and enters the method. -/
theorem execute_call {act : Activation} {access : Access} {method : MethodId} {args : List Value} {rest : OperandStack}
    (hroot : ¬(access = .special ∧ method.isObjectConstructor = true))
    (hstack : act.frame.stack = args.reverse ++ rest) (hcount : args.length = argumentCount access method)
    (hreceiver : access ≠ .static → ∃ key, args.head? = some (.reference (some key))) :
    execute (.invoke access method) act = .ok (.call (Frame.start method args)) (act.withStack rest) := by
  -- The stack has the last argument on top, the popping puts them back in order.
  have htake : popArguments args.length [] act = .ok args (act.withStack rest) :=
    popArguments_eq_ok.2 ⟨args.reverse, rest, hstack, by simp, by simp, rfl⟩
  have hroot' : ¬(access = .special && method.isObjectConstructor) = true := by simpa using hroot
  simp only [execute, invoke, if_neg hroot']
  by_cases hstatic : access = .static
  · simp only [argumentCount, hstatic, if_true, Nat.add_zero] at hcount
    rw [if_pos hstatic, callStatic, bind_apply, ← hcount, htake]
    rfl
  · simp only [argumentCount, hstatic, if_false] at hcount
    obtain ⟨key, hkey⟩ := hreceiver hstatic
    rw [if_neg hstatic, callOn, bind_apply, ← hcount, htake]
    have hhead : args.headD .null = .reference (some key) := by
      rw [List.headD_eq_head?_getD, hkey]
      rfl
    simp only [hhead]
    rfl

end Exec

section

variable {image : Image} {state : State} {caller : Frame} {callers : List Frame} {access : Access} {method : MethodId}
  {args : List Value} {rest : OperandStack} {store : Store}

/-- The step that makes the call. -/
theorem Calls.step (h : Calls image state caller callers access method args rest)
    (hstore : Store.Faithful image store) (hm : caller.pc.method.Unambiguous) :
    ∃ entered, Store.Faithful image entered ∧ Bytecode.step ⟨state, store⟩ =
      .next .enter
        ⟨{ state with frames := .start method args :: { caller with stack := rest } :: callers }, entered⟩ := by
  obtain ⟨hanswer, hfaithful⟩ := hstore.fetch hm
  obtain ⟨entered, hfetch⟩ := answer_eq_ok (hanswer.trans h.instruction)
  rw [hfetch] at hfaithful
  have hexecute : execute (.invoke access method) ⟨caller, state.heap, state.statics, entered⟩ = _ :=
    Exec.execute_call h.notRoot h.operands h.count h.receiver
  refine ⟨entered, hfaithful, ?_⟩
  rw [step_cons h.frames]
  simp only [hfetch, hexecute]
  rfl

/-- The called method is one whose identifier cannot be taken for another's. -/
theorem Calls.unambiguous (h : Calls image state caller callers access method args rest)
    (himage : image.Unambiguous) (hm : caller.pc.method.Unambiguous) : method.Unambiguous := by
  obtain ⟨_, hfetch⟩ := answer_eq_ok h.instruction
  obtain ⟨code, hcode, hinvoke⟩ := (Store.faithful_ofImage image).mem_of_fetch hm hfetch
  exact himage _ code hcode access method hinvoke

end

/-- The lone machine's steps, taken over a base of callers. -/
theorem Reaches.above {image : Image} (himage : image.Unambiguous) {base : List Frame} {alone above last : Machine}
    {j : Nat} (hreaches : Reaches alone j last) (halone : Machine.Faithful image alone)
    (hframes : alone.state.frames ≠ []) (habove : Machine.Under (BothFaithful image) base alone above) :
    ∃ last', Reaches above j last' ∧ Machine.Under (BothFaithful image) base last last' := by
  induction hreaches with
  | refl => exact ⟨above, .refl, habove⟩
  | @step k machine next move hbefore hstep ih =>
    obtain ⟨machine', hbefore', hunder⟩ := ih
    -- The lone machine goes on here, so the other one can neither stop nor return.
    have hresult := step_under_faithful (halone.reaches himage hbefore) (hbefore.frames_ne_nil hframes) hunder
    rw [hstep] at hresult
    generalize hstep' : Bytecode.step machine' = result at hresult
    cases hresult with
    | @next _ _ next' hnext => exact ⟨next', .step hbefore' hstep', hnext⟩

/-- A machine whose innermost frame rests on a call, compared with the lone
machine that begins in the called method with the same arguments, heap and
static fields, over any faithful stores.

- When the lone program ends with `ok`, one step later the first machine has all
  its frames back; the caller has lost the arguments, has the result if there is
  one, and stands behind its call.
- When it ends with another outcome or fails, so does the first machine one step
  later, over the waiting callers.
- As long as it goes on, the first machine is one step behind, over the same callers. -/
theorem call_context_independent {image : Image} (himage : image.Unambiguous) {state : State} {caller : Frame}
    {callers : List Frame} {access : Access} {method : MethodId} {args : List Value} {rest : OperandStack}
    (hcall : Calls image state caller callers access method args rest) (hm : caller.pc.method.Unambiguous)
    {store store' : Store} (hstore : Store.Faithful image store) (hstore' : Store.Faithful image store') (k : Nat) :
    let first : Machine := ⟨state, store⟩
    let alone : Machine := ⟨{ state with frames := [.start method args] }, store'⟩
    let waiting := { caller with stack := rest } :: callers
    (∀ returned left, Halts alone k .ok returned left → ∃ last, Reaches first (k + 1) last ∧
      last.state = { left.state with
        frames := { caller with pc := caller.pc.advance (.int 1), stack := returned.toList ++ rest } :: callers }) ∧
    (∀ outcome returned left, outcome ≠ .ok → Halts alone k outcome returned left →
      ∃ left', Halts first (k + 1) outcome returned left' ∧ left'.state = left.state.above waiting) ∧
    (∀ fault left, Faults alone k fault left →
      ∃ left', Faults first (k + 1) fault left' ∧ left'.state = left.state.above waiting) ∧
    (∀ last, Reaches alone k last →
      ∃ last', Reaches first (k + 1) last' ∧ last'.state = last.state.above waiting) := by
  intro first alone waiting
  obtain ⟨entered, hentered, hstep⟩ := hcall.step hstore hm
  have halone : Machine.Faithful image alone := by
    refine ⟨hstore', fun frame hframe => ?_⟩
    obtain rfl := List.mem_singleton.1 hframe
    exact hcall.unambiguous himage hm
  have habove : Machine.Under (BothFaithful image) waiting alone
      ⟨{ state with frames := .start method args :: waiting }, entered⟩ := ⟨rfl, hstore', hentered⟩
  -- The lone machine's steps, with the call in front of them.
  have hbehind : ∀ j last, Reaches alone j last → ∃ last', Reaches first (1 + j) last' ∧
      StepResult.Under (BothFaithful image) Eq waiting (step last) (step last') ∧
      last'.state = last.state.above waiting := by
    intro j last hlast
    obtain ⟨last', hlast', hunder⟩ := hlast.above himage halone (by simp [alone]) habove
    refine ⟨last', (Reaches.step .refl hstep).trans hlast', ?_, hunder.state⟩
    exact step_under_faithful (halone.reaches himage hlast) (hlast.frames_ne_nil (by simp [alone])) hunder
  refine ⟨?_, ?_, ?_, ?_⟩
  · rintro returned left ⟨j, last, rfl, hlast, hhalt⟩
    obtain ⟨last', hlast', hresult, -⟩ := hbehind j last hlast
    rw [hhalt] at hresult
    generalize hstep' : step last' = result at hresult
    -- There is a caller, so the end of the lone program is a return.
    cases hresult with
    | halt hne => exact absurd rfl hne
    | finish hbase => exact absurd hbase (List.cons_ne_nil _ _)
    | resume hbase hnil hstores hstate =>
      obtain ⟨rfl, rfl⟩ := List.cons.inj hbase
      refine ⟨_, Nat.add_comm 1 j ▸ .step hlast' hstep', hstate.trans ?_⟩
      cases returned <;> rfl
  · rintro outcome returned left hne ⟨j, last, rfl, hlast, hhalt⟩
    obtain ⟨last', hlast', hresult, -⟩ := hbehind j last hlast
    rw [hhalt] at hresult
    generalize hstep' : step last' = result at hresult
    cases hresult with
    | @halt _ _ _ left' _ hunder => exact ⟨left', ⟨1 + j, last', by omega, hlast', hstep'⟩, hunder.state⟩
    | finish => exact absurd rfl hne
    | resume => exact absurd rfl hne
  · rintro fault left ⟨j, last, rfl, hlast, hfault⟩
    obtain ⟨last', hlast', hresult, -⟩ := hbehind j last hlast
    rw [hfault] at hresult
    generalize hstep' : step last' = result at hresult
    cases hresult with
    | @fault _ fault' _ left' heq hunder =>
      obtain rfl : fault = fault' := heq
      exact ⟨left', ⟨1 + j, last', by omega, hlast', hstep'⟩, hunder.state⟩
  · intro last hlast
    obtain ⟨last', hlast', -, hstate⟩ := hbehind k last hlast
    exact ⟨last', Nat.add_comm 1 k ▸ hlast', hstate⟩

namespace Sample

/-- A reference to the first entry of the heap. -/
def operand : Value := .reference (some (.int 0))

def caller : Frame := ⟨⟨method "main", .int 1⟩, [(.int 0, operand)], [operand]⟩

/-- Just before the only call of the program. -/
def calling : State := ⟨⟨#[.array (.primitive .int) [.int 7, .int 8]]⟩, [caller], []⟩

theorem calls : Calls image calling caller [] .static (method "first") [operand] [] where
  frames := rfl
  instruction := rfl
  operands := rfl
  count := rfl
  receiver := absurd rfl
  notRoot := by decide

/-- The called method alone. -/
def alone : Machine := ⟨{ calling with frames := [.start (method "first") [operand]] }, .ofImage image⟩

theorem alone_halts :
    ∃ left, Halts alone 4 .ok (some (.int 7)) left ∧ left.state = { calling with frames := [] } := by
  let after (offset : Int) (stack : OperandStack) : Machine :=
    ⟨{ calling with frames := [⟨⟨method "first", .int offset⟩, [(.int 0, operand)], stack⟩] },
      ⟨image, [((method "first").text, firstCode)], []⟩⟩
  have hload : step alone = .next .stay (after 1 [operand]) := rfl
  have hpush : step (after 1 [operand]) = .next .stay (after 2 [.int 0, operand]) := rfl
  have hitem : step (after 2 [.int 0, operand]) = .next .stay (after 3 [.int 7]) := rfl
  exact ⟨_, ⟨3, _, rfl, ((Reaches.refl.step hload).step hpush).step hitem, rfl⟩, rfl⟩

end Sample

open Sample in
/-- Five steps later the caller has the first item in place of the array. -/
theorem call_returns_first_item : ∃ last, Reaches ⟨calling, .ofImage image⟩ 5 last ∧
    last.state = { calling with frames := [⟨⟨method "main", .int 2⟩, [(.int 0, operand)], [.int 7]⟩] } := by
  have hfresh : Store.Faithful image (.ofImage image) := Store.faithful_ofImage image
  obtain ⟨left, hhalts, hleft⟩ := alone_halts
  have h := call_context_independent unambiguous_image calls (unambiguous_method (by decide)) hfresh hfresh 4
  obtain ⟨last, hreaches, hlast⟩ := h.1 _ left hhalts
  exact ⟨last, hreaches, by rw [hlast, hleft]; rfl⟩

end Bytecode
