import Bytecode.Execute
/-!
# Steps

`step` fetches the instruction at the program counter of the innermost frame, executes it and
applies the resulting control to the call stack.
-/
namespace Bytecode

/-- A state and the store of its run. -/
structure Machine where
  state : State
  store : Store

/-- What a step does to the call stack: it keeps its height, enters a method or returns to a
caller. -/
inductive Move where
  | stay | enter | leave
deriving Repr, DecidableEq

/-- A step leads to the next state, ends the program, or fails; always with the machine as it is
left. -/
inductive StepResult where
  | next (move : Move) (machine : Machine)
  | halt (outcome : Outcome) (returned : Option Value) (machine : Machine)
  | fault (fault : Fault) (machine : Machine)

namespace Activation

/-- The machine with the activation's frame and the callers below it. -/
def machine (act : Activation) (frames : List Frame) : Machine :=
  ⟨⟨act.heap, frames, act.statics⟩, act.store⟩

end Activation

/-- Hands a result to the caller, which goes on behind its call; without a caller the program ends. -/
def finish (act : Activation) (returned : Option Value) : List Frame → StepResult
  | [] => .halt .ok returned (act.machine [])
  | caller :: callers =>
    let resumed := match returned with
      | some v => caller.push v
      | none => caller
    .next .leave (act.machine (resumed.advance (.int 1) :: callers))

/-- Applies the control of an executed instruction. A caller's program counter stays on its call. -/
def Control.apply (act : Activation) (callers : List Frame) : Control → StepResult
  | next => .next .stay (act.machine (act.frame.advance (.int 1) :: callers))
  | jump target => .next .stay (act.machine (act.frame.jump (.int target) :: callers))
  | call callee => .next .enter (act.machine (callee :: act.frame :: callers))
  | leave returned => finish act returned callers

def Stop.apply (act : Activation) (callers : List Frame) : Stop → StepResult
  | halt outcome => .halt outcome none (act.machine (act.frame :: callers))
  | fault f => .fault f (act.machine (act.frame :: callers))

/-- Executes the instruction that the innermost frame's program counter addresses. -/
def step (machine : Machine) : StepResult :=
  match machine.state.frames with
  | [] => .fault (.malformed .callStackEmpty) machine
  | frame :: callers =>
    match Store.fetch frame.pc machine.store with
    | .error fault store => .fault fault { machine with store }
    | .ok instruction store =>
      match execute instruction ⟨frame, machine.state.heap, machine.state.statics, store⟩ with
      | .ok control act => control.apply act callers
      | .error stop act => stop.apply act callers

end Bytecode
