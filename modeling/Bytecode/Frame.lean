import Bytecode.OperandStack
/-!
# Frames

A frame is one activation of a method: its local slots, its operand stack and its program counter.
-/
namespace Bytecode

structure Frame where
  pc : ProgramCounter
  locals : Table Number Value
  stack : OperandStack
deriving Repr

namespace Frame

/-- A fresh activation: the arguments in the slots from 0 on, and nothing on the stack. -/
def start (method : MethodId) (args : List Value) : Frame :=
  { pc := .start method
    locals := args.zipIdx.map fun (v, slot) => (.int slot, v)
    stack := [] }

def load (slot : Number) (frame : Frame) : Except Fault Value :=
  match Table.get? slot frame.locals with
  | some v => .ok v
  | none => .error (.unwrittenLocal slot frame.pc.text)

def store (slot : Number) (v : Value) (frame : Frame) : Frame :=
  { frame with locals := Table.insert slot v frame.locals }

def push (v : Value) (frame : Frame) : Frame := { frame with stack := v :: frame.stack }

def advance (delta : Number) (frame : Frame) : Frame := { frame with pc := frame.pc.advance delta }

def jump (target : Number) (frame : Frame) : Frame := { frame with pc := frame.pc.jump target }

def slotText (slot : Number × Value) : Text := slot.1.text ++ ":" ++ slot.2.text

def text (frame : Frame) : Text :=
  Text.ofString "<\x7b" ++ Text.join ", " (frame.locals.map slotText) ++ "\x7d, " ++
    OperandStack.text frame.stack ++ ", " ++ frame.pc.text ++ ">"

end Frame

end Bytecode
