import Bytecode.Fault
import Bytecode.Value
/-!
# Operand stacks

The working storage of one activation.
-/
namespace Bytecode

/-- The operands of an activation, the topmost first. -/
abbrev OperandStack := List Value

namespace OperandStack

/-- The topmost operand and the operands below it. -/
def pop : OperandStack → Except Fault (Value × OperandStack)
  | [] => .error (.malformed .stackUnderflow)
  | v :: rest => .ok (v, rest)

def peek : OperandStack → Except Fault Value
  | [] => .error (.malformed .peekUnderflow)
  | v :: _ => .ok v

/-- The operands from the bottom to the top, and `ϵ` for none. -/
def text (stack : OperandStack) : Text :=
  if stack.isEmpty then "ϵ" else Text.join " " (stack.reverse.map Value.text)

end OperandStack

end Bytecode
