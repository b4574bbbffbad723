import Bytecode.Step
/-!
# Runs

A run takes steps from a prepared state until the program ends, a fault arises or the budget of
steps is used up. Statistics are kept as it goes, and the lines of a trace if they are wanted;
neither has any influence on the steps.
-/
namespace Bytecode

/-- Counts of a run. The depths are numbers of frames. -/
structure Statistics where
  steps : Nat
  callDepth : Nat
  maxCallDepth : Nat
  heapSize : Nat
deriving Repr, DecidableEq

/-- A run under way: the machine, the counts so far, and the trace if there is one. -/
structure Progress where
  machine : Machine
  stats : Statistics
  traced : Bool
  trace : Array Text

/-- How a run ended. -/
inductive Ending where
  | halted (outcome : Outcome) (returned : Option Value)
  | exhausted
  | faulted (fault : Fault)

/-- How the lines of a trace begin. -/
def traceLead : Text := "[DEBUG] "

namespace Progress

/-- A run that has not begun. -/
def start (traced : Bool) (trace : Array Text) (machine : Machine) : Progress :=
  { machine, traced, trace
    stats := ⟨0, machine.state.depth, machine.state.depth, machine.state.heap.size⟩ }

/-- Adds a line to the trace, if there is one. -/
def note (line : Unit → Text) (p : Progress) : Progress :=
  if p.traced then { p with trace := p.trace.push (traceLead ++ line ()) } else p

/-- The line shown before a step. -/
def stepLine (frame : Frame) (instruction : Instruction) : Text :=
  Text.ofString "PC=" ++ frame.pc.text ++ " | " ++ instruction.text ++ " | Stack: [" ++
    Text.join ", " (frame.stack.reverse.map Value.text) ++ "]"

/-- Shows the instruction that comes next, if there is a trace. Fetching it can already fail. -/
def announce : EStateM Fault Progress Unit := fun p =>
  if p.traced then
    match p.machine.state.frames with
    | [] => .error (.malformed .callStackEmpty) p
    | frame :: _ =>
      match Store.fetch frame.pc p.machine.store with
      | .ok instruction store =>
        let p := { p with machine := { p.machine with store } }
        .ok () (p.note fun _ => stepLine frame instruction)
      | .error fault store => .error fault { p with machine := { p.machine with store } }
  else .ok () p

/-- The line shown when a method was entered or returned to. -/
def depthLine (verb : Text) (state : State) (depth : Nat) : Text :=
  let method := match state.frames with
    | [] => []
    | frame :: _ => frame.pc.method.text
  verb ++ " " ++ method ++ " (depth " ++ Text.ofNat depth ++ ")"

/-- Counts the call depth after a step: one more frame, one less, or as many as before. -/
def observeMove (move : Move) (p : Progress) : Progress :=
  match move with
  | .stay => p
  | .enter =>
    let depth := p.stats.callDepth + 1
    let p := p.note fun _ => depthLine "Entered" p.machine.state depth
    { p with stats := { p.stats with
        callDepth := depth, maxCallDepth := max p.stats.maxCallDepth depth } }
  | .leave =>
    let depth := p.stats.callDepth - 1
    let p := p.note fun _ => depthLine "Returned to" p.machine.state depth
    { p with stats := { p.stats with callDepth := depth } }

/-- Counts the heap after a step. -/
def observeHeap (p : Progress) : Progress :=
  let heap := p.machine.state.heap
  if heap.size = p.stats.heapSize then p
  else
    let p := p.note fun _ => Text.ofString "Heap: " ++ heap.text
    { p with stats := { p.stats with heapSize := heap.size } }

/-- The run with the machine that a completed step led to. -/
def completed (machine : Machine) (p : Progress) : Progress :=
  { p with machine, stats := { p.stats with steps := p.stats.steps + 1 } }

/-- The run after a step that goes on. -/
def advance (move : Move) (machine : Machine) (p : Progress) : Progress :=
  ((p.completed machine).observeMove move).observeHeap

/-- The line shown when the program has ended. -/
def haltLine (outcome : Outcome) (steps : Nat) : Text :=
  Text.ofString "Halted with " ++ Text.quoted outcome.text ++ " after " ++ Text.ofNat steps ++
    " steps"

/-- The run after a step that ended the program. -/
def halted (outcome : Outcome) (machine : Machine) (p : Progress) : Progress :=
  let p := p.completed machine
  let p := { p with stats := { p.stats with callDepth := machine.state.depth } }
  p.note fun _ => haltLine outcome p.stats.steps

end Progress

/-- Takes up to a number of steps. -/
def run : Nat → Progress → Ending × Progress
  | 0, p => (.exhausted, p)
  | budget + 1, p =>
    match Progress.announce p with
    | .error fault p => (.faulted fault, p)
    | .ok () p =>
      match step p.machine with
      | .next move machine => run budget (p.advance move machine)
      | .halt outcome returned machine => (.halted outcome returned, p.halted outcome machine)
      | .fault fault machine => (.faulted fault, { p with machine })

end Bytecode
