import Bytecode.MethodId
import Bytecode.Value
/-!
# Instructions

The instructions of the machine. Jump targets and slots are integers; what they may be is decided
when they are used. `Instruction.text` is the line that listings and traces show.
-/
namespace Bytecode

/-- The member of a list that has a name. -/
def named? {α : Type} (all : List α) (name : α → Text) (t : Text) : Option α :=
  all.find? fun a => name a = t

inductive Operator where
  | add | sub | mul | div | rem | and | or | xor | shl | shr | ushr
deriving Repr, DecidableEq

inductive Condition where
  | eq | ne | lt | ge | gt | le | is | isnot
deriving Repr, DecidableEq

/-- What a local slot or a returned value is declared to hold: a scalar or a reference. -/
inductive Category where
  | int | ref
deriving Repr, DecidableEq

inductive Access where
  | static | special | virtual
deriving Repr, DecidableEq

/-- The types that an integer can be cast to. -/
inductive CastTarget where
  | short | byte | char
deriving Repr, DecidableEq

inductive Instruction where
  | push (value : Value)
  | load (category : Category) (slot : Int)
  | store (category : Category) (slot : Int)
  | binary (operator : Operator)
  | negate
  | incr (slot amount : Int)
  | dup
  | pop
  /-- Compares the two topmost operands. -/
  | branch (condition : Condition) (target : Int)
  /-- Compares the topmost operand with zero or null. -/
  | branchZero (condition : Condition) (target : Int)
  | goto (target : Int)
  | get (isStatic : Bool) (field : FieldRef)
  | put (isStatic : Bool) (field : FieldRef)
  | new (className : Text)
  | newArray (element : Ty)
  | arrayLoad (element : Ty)
  | arrayStore (element : Ty)
  | arrayLength
  | invoke (access : Access) (method : MethodId)
  /-- Returns an operand of the category, or nothing. -/
  | return (category : Option Category)
  | cast (target : CastTarget)
deriving Repr

/-- The operation of an instruction, without its operands. -/
inductive Opcode where
  | push | load | store | binary | negate | incr | dup | pop | branch | branchZero | goto | get | put
  | new | newArray | arrayLoad | arrayStore | arrayLength | invoke | return | cast
deriving Repr, DecidableEq

namespace Operator

def all : List Operator := [add, sub, mul, div, rem, and, or, xor, shl, shr, ushr]

def name : Operator → Text
  | add => "add"
  | sub => "sub"
  | mul => "mul"
  | div => "div"
  | rem => "rem"
  | and => "and"
  | or => "or"
  | xor => "xor"
  | shl => "shl"
  | shr => "shr"
  | ushr => "ushr"

end Operator

namespace Condition

def all : List Condition := [eq, ne, lt, ge, gt, le, is, isnot]

def name : Condition → Text
  | eq => "eq"
  | ne => "ne"
  | lt => "lt"
  | ge => "ge"
  | gt => "gt"
  | le => "le"
  | is => "is"
  | isnot => "isnot"

end Condition

def Category.name : Category → Text
  | int => "int"
  | ref => "ref"

namespace Access

def all : List Access := [static, special, virtual]

def name : Access → Text
  | static => "static"
  | special => "special"
  | virtual => "virtual"

end Access

def CastTarget.type : CastTarget → Primitive
  | short => .short
  | byte => .byte
  | char => .char

namespace Opcode

def all : List Opcode :=
  [push, load, store, binary, negate, incr, dup, pop, branch, branchZero, goto, get, put, new,
    newArray, arrayLoad, arrayStore, arrayLength, invoke, .return, cast]

/-- The word that stands for an operation in class files and listings. -/
def name : Opcode → Text
  | push => "push"
  | load => "load"
  | store => "store"
  | binary => "binary"
  | negate => "negate"
  | incr => "incr"
  | dup => "dup"
  | pop => "pop"
  | branch => "if"
  | branchZero => "ifz"
  | goto => "goto"
  | get => "get"
  | put => "put"
  | new => "new"
  | newArray => "newarray"
  | arrayLoad => "array_load"
  | arrayStore => "array_store"
  | arrayLength => "arraylength"
  | invoke => "invoke"
  | .return => "return"
  | cast => "cast"

end Opcode

namespace Instruction

def opcode : Instruction → Opcode
  | push .. => .push
  | load .. => .load
  | store .. => .store
  | binary .. => .binary
  | negate => .negate
  | incr .. => .incr
  | dup => .dup
  | pop => .pop
  | branch .. => .branch
  | branchZero .. => .branchZero
  | goto .. => .goto
  | get .. => .get
  | put .. => .put
  | new .. => .new
  | newArray .. => .newArray
  | arrayLoad .. => .arrayLoad
  | arrayStore .. => .arrayStore
  | arrayLength => .arrayLength
  | invoke .. => .invoke
  | .return .. => .return
  | cast .. => .cast

/-- What follows the operation's word in a listing. -/
def operandText : Instruction → Text
  | push value => Text.ofString " " ++ value.text
  | load category slot | store category slot =>
    Text.ofString ":" ++ category.name ++ " " ++ Number.intText slot
  | binary operator => Text.ofString " " ++ operator.name
  | negate | dup | pop | arrayLength => []
  | incr slot amount =>
    Text.ofString " " ++ Number.intText slot ++ " by " ++ Number.intText amount
  | branch condition target | branchZero condition target =>
    Text.ofString " " ++ condition.name ++ " " ++ Number.intText target
  | goto target => Text.ofString " " ++ Number.intText target
  | get isStatic field | put isStatic field =>
    Text.ofString (if isStatic then " static " else " ") ++ field.text
  | new className => Text.ofString " " ++ className
  | newArray element | arrayLoad element | arrayStore element =>
    Text.ofString ":" ++ element.text
  | invoke access method => Text.ofString " " ++ access.name ++ " " ++ method.text
  | .return none => []
  | .return (some category) => Text.ofString ":" ++ category.name
  | cast target => Text.ofString " int to " ++ target.type.name

def text (instruction : Instruction) : Text := instruction.opcode.name ++ instruction.operandText

end Instruction

/-- The body of a method. -/
abbrev Code := Array Instruction

end Bytecode
