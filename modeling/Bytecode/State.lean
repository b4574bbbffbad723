import Bytecode.Frame
import Bytecode.Heap
/-!
# States

The state of a run is its heap, its call stack and the static fields that were written.
`State.initial` is the state in which a method begins with given arguments.
-/
namespace Bytecode

/-- The state of a run. -/
structure State where
  heap : Heap
  /-- The innermost frame first. -/
  frames : List Frame
  /-- The static fields that were written, by the texts of their references. -/
  statics : Table Text Value
deriving Repr

namespace State

def empty : State := ⟨.empty, [], []⟩

def depth (state : State) : Nat := state.frames.length

def pushFrame (frame : Frame) (state : State) : State :=
  { state with frames := frame :: state.frames }

def top (state : State) : Except Fault Frame :=
  match state.frames with
  | [] => .error (.malformed .callStackEmpty)
  | frame :: _ => .ok frame

def popFrame (state : State) : Except Fault (Frame × State) :=
  match state.frames with
  | [] => .error (.malformed .returnWithoutCall)
  | frame :: callers => .ok (frame, { state with frames := callers })

/-- Binds an argument: a boolean becomes the integer 0 or 1, an array goes to the heap and is passed
by reference, and everything else is passed as it is. -/
def bindArgument (heap : Heap) : Value → Value × Heap
  | .boolean b => (.int (if b then 1 else 0), heap)
  | .array element items => (.reference (some (.int heap.size)), heap.allocate (.array element items))
  | v => (v, heap)

/-- Binds arguments from the first to the last. -/
def bindArguments (heap : Heap) : List Value → List Value × Heap
  | [] => ([], heap)
  | v :: values =>
    let (arg, heap) := bindArgument heap v
    let (args, heap) := bindArguments heap values
    (arg :: args, heap)

/-- The state in which a method begins. -/
def initial (method : MethodId) (values : List Value) : State :=
  let (args, heap) := bindArguments .empty values
  ⟨heap, [Frame.start method args], []⟩

end State

end Bytecode
