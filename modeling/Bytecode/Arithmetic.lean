import Bytecode.Fault
import Bytecode.Instruction
/-!
# Arithmetic and comparison

The integer operations of the machine. `Operator.apply` computes on integers and makes a word of the
result; `Condition.compare` decides a branch.
-/
namespace Bytecode

/-- The floating-point quotient of two integers, for a divisor that is not zero. -/
def Number.quotient (a b : Int) : Number := ofQuotient (a * b.sign) b.natAbs

namespace Operator

/-- The result of an operation; `none` for a division by zero. Sums and quotients are taken in floating
point, a quotient loses its fraction, and a remainder has the sign of the dividend. -/
def apply (operator : Operator) (a b : Int) : Option Int :=
  match operator with
  | add => some (Word.signed 32 (Number.nearestInt (a + b)))
  | sub => some (Word.signed 32 (Number.nearestInt (a - b)))
  | mul => some (Word.signed 32 (a * b))
  | div => if b = 0 then none else some (Word.signed 32 (Number.quotient a b).truncate)
  | rem => if b = 0 then none else some (Word.signed 32 (a.tmod b))
  | and => some (Word.bitwise (· &&& ·) a b)
  | or => some (Word.bitwise (· ||| ·) a b)
  | xor => some (Word.bitwise (· ^^^ ·) a b)
  | shl => some (Word.shiftLeft a b)
  | shr => some (Word.shiftRight a b)
  | ushr => some (Word.shiftRightUnsigned a b)

end Operator

namespace Condition

/-- The conditions that compare by size. -/
def isOrdering : Condition → Bool
  | lt | ge | gt | le => true
  | eq | ne | is | isnot => false

/-- Whether a condition holds of two numbers. -/
def holds (condition : Condition) (a b : Number) : Bool :=
  match condition with
  | eq | is => a.same b
  | ne | isnot => !a.same b
  | lt => a.lt b
  | ge => b.lt a || a.same b
  | gt => b.lt a
  | le => a.lt b || a.same b

/-- Decides a condition between two operands, `none` being the null reference, which is equal only
to itself and has no size. -/
def compare (condition : Condition) (left right : Option Number) (site : Text) : Except Fault Bool :=
  match condition, left, right with
  | condition, some a, some b => .ok (condition.holds a b)
  | .eq, a, b | .is, a, b => .ok (Value.sameKey a b)
  | .ne, a, b | .isnot, a, b => .ok (!Value.sameKey a b)
  | _, _, _ => .error (.mistyped "int" "reference" site)

end Condition

end Bytecode
