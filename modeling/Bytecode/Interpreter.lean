import Bytecode.Run
/-!
# Interpreters

An interpreter does one run after another over one program image, each with a budget of steps and a
store of its own. It keeps the statistics of the latest run and collects the lines of the traces.
-/
namespace Bytecode

/-- What a finished run reports. -/
structure Report where
  /-- The outcome, `*` if the budget was used up. -/
  outcome : Text
  steps : Nat
  /-- The value that the first method returned, if it returned one. -/
  returned : Option Value

structure Interpreter where
  image : Image
  maxSteps : Number
  traced : Bool
  /-- The counts of the latest run. -/
  stats : Statistics
  trace : Array Text

namespace Interpreter

def defaultMaxSteps : Number := .int 100000

def ofImage (image : Image) (maxSteps : Number) (traced : Bool) : Interpreter :=
  ⟨image, maxSteps, traced, ⟨0, 0, 0, 0⟩, #[]⟩

/-- The line shown when the budget is used up. -/
def budgetLine (maxSteps : Number) : Text :=
  Text.ofString "Step budget of " ++ maxSteps.text ++ " exhausted"

/-- The run of a prepared state, with a used-up budget noted. -/
def drive (interpreter : Interpreter) (state : State) : Ending × Progress :=
  let machine : Machine := ⟨state, .ofImage interpreter.image⟩
  match run interpreter.maxSteps.countBelow (.start interpreter.traced interpreter.trace machine) with
  | (.exhausted, p) => (.exhausted, p.note fun _ => budgetLine interpreter.maxSteps)
  | ended => ended

/-- What an ended run reports: a fault, or an outcome with the number of steps. -/
def report (stats : Statistics) : Ending → Except Fault Report
  | .halted outcome returned => .ok ⟨outcome.text, stats.steps, returned⟩
  | .exhausted => .ok ⟨"*", stats.steps, none⟩
  | .faulted fault => .error fault

/-- Runs a prepared state. -/
def execute (state : State) (interpreter : Interpreter) : Except Fault Report × Interpreter :=
  let (ending, p) := interpreter.drive state
  (report p.stats ending,
    { interpreter with image := p.machine.store.image, stats := p.stats, trace := p.trace })

/-- Adds lines to the trace, if there is one. -/
def note (lines : Array Text) (interpreter : Interpreter) : Interpreter :=
  if interpreter.traced then { interpreter with trace := interpreter.trace ++ lines }
  else interpreter

/-- The lines shown before a run from a method's first state. -/
def initialLines (state : State) : Array Text :=
  state.frames.toArray.map fun frame => traceLead ++ "Initial frame " ++ frame.text

/-- Runs a method with arguments. -/
def runMethod (method : MethodId) (values : List Value) (interpreter : Interpreter) :
    Except Fault Report × Interpreter :=
  let state := State.initial method values
  (interpreter.note (initialLines state)).execute state

/-- The same interpreter with an empty trace. -/
def clearTrace (interpreter : Interpreter) : Interpreter := { interpreter with trace := #[] }

end Interpreter

end Bytecode
