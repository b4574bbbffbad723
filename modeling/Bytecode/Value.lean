import Bytecode.Json
import Bytecode.Number.Literal
import Bytecode.Number.Shortest
import Bytecode.Ty
import Bytecode.Word
/-!
# Values

Local slots, operand stacks and static fields hold scalars and references; arrays and objects live
on the heap. Integers are unbounded here and are narrowed where a value of a type is made:
`Value.narrow p n` is what shifts and masks on words leave of `n` in type `p`.
-/
namespace Bytecode

inductive Value where
  | int (n : Int)
  | boolean (b : Bool)
  /-- A code unit, as a number. -/
  | char (n : Int)
  | short (n : Int)
  | byte (n : Int)
  /-- A key of the heap, or the null reference. -/
  | reference (ref : Option Number)
  | array (element : Ty) (items : List Value)
  /-- The fields in the order in which they were first set. -/
  | object (className : Text) (fields : List (Text × Value))
deriving Inhabited, Repr

/-- A constant of a class. -/
inductive Constant where
  | null
  | number (n : Number)
  | boolean (b : Bool)
  | text (t : Text)
  /-- A list or an object, which no class file may hold. -/
  | compound (json : Json)
deriving Repr

namespace Value

def null : Value := reference none

/-! ## Narrowing -/

/-- The value of a primitive type that an integer is narrowed to. The types with a sign keep as many
low bits as a word has room for above the shift, the others those under the mask. -/
def narrow : Primitive → Int → Value
  | .int, n => int (Word.bitwise (· ||| ·) n 0)
  | .boolean, n => boolean (Word.bitwise (· &&& ·) n 1 ≠ 0)
  | .char, n => char (Word.bitwise (· &&& ·) n 65535)
  | .short, n => short (Word.shiftRight (Word.shiftLeft n 16) 16)
  | .byte, n => byte (Word.shiftRight (Word.shiftLeft n 24) 24)

/-! What is left of an integer are its low bits, read as signed or as unsigned. -/

theorem narrow_int (n : Int) : narrow .int n = int (Word.signed 32 n) := congrArg int (Word.bitwise_zero n)

theorem narrow_boolean (n : Int) : narrow .boolean n = boolean (n % 2 ≠ 0) := by
  have hlow : Word.bitwise (· &&& ·) n 1 = n % 2 := Word.bitwise_mask (k := 1) (by decide) n
  simp only [narrow, hlow]

theorem narrow_char (n : Int) : narrow .char n = char (n % pow2 16) :=
  congrArg char (Word.bitwise_mask (k := 16) (by decide) n)

theorem narrow_short (n : Int) : narrow .short n = short (Word.signed 16 n) :=
  congrArg short (Word.shiftRight_shiftLeft (k := 16) (by decide) n)

theorem narrow_byte (n : Int) : narrow .byte n = byte (Word.signed 8 n) :=
  congrArg byte (Word.shiftRight_shiftLeft (k := 24) (by decide) n)

/-- What a fresh field or array element holds. -/
def default : Ty → Value
  | .primitive p => narrow p 0
  | _ => null

/-! ## Constants -/

mutual

/-- The number that an item of a list stands for when it is the only one. -/
def itemNumber : Json → Number
  | .null => .int 0
  | .number n => n
  | .string t => .ofText t
  | .array items => itemsNumber items
  | .bool _ | .object _ => .notANumber

/-- The number that a list stands for: zero if it is empty, its item's if it has one, else none. -/
def itemsNumber : List Json → Number
  | [] => .int 0
  | [item] => itemNumber item
  | _ => .notANumber

end

/-- The number that a constant stands for. -/
def constantNumber : Constant → Number
  | .null => .int 0
  | .number n => n
  | .boolean b => .int (if b then 1 else 0)
  | .text t => .ofText t
  | .compound json => itemNumber json

/-- The value of a primitive type that a constant stands for. A boolean is true for every number but
zero, also for what is no number; a text stands for the char that is its first unit, and for the
number it spells. -/
def ofConstant : Primitive → Constant → Value
  | .boolean, .boolean b => boolean b
  | .boolean, c => boolean (!(constantNumber c).isZero)
  | .char, .text t => narrow .char ((t.head?.map (Int.ofNat ·.toNat)).getD 0)
  | p, c => narrow p (constantNumber c).truncate

/-! ## Inspection -/

/-- Whether two references have equal keys, or are both null. -/
def sameKey : Option Number → Option Number → Bool
  | some x, some y => x.same y
  | none, none => true
  | _, _ => false

theorem sameKey_iff {a b : Option Number} : sameKey a b = true ↔ a = b ∧ a ≠ some .notANumber := by
  cases a <;> cases b <;> simp [sameKey, Number.same_iff]

theorem sameKey_int_left (n : Int) (key : Number) : sameKey (some (.int n)) (some key) = decide (key = .int n) := by
  rw [Bool.eq_iff_iff, sameKey_iff, decide_eq_true_iff]
  simp [eq_comm]

theorem sameKey_int_right (n : Int) (key : Number) : sameKey (some key) (some (.int n)) = decide (key = .int n) := by
  rw [Bool.eq_iff_iff, sameKey_iff, decide_eq_true_iff]
  grind

/-- The number behind a scalar, 0 or 1 for a boolean. References, arrays and objects have none. -/
def toInt? : Value → Option Int
  | int n | char n | short n | byte n => some n
  | boolean b => some (if b then 1 else 0)
  | _ => none

def kind : Value → Text
  | int _ => "int"
  | boolean _ => "boolean"
  | char _ => "char"
  | short _ => "short"
  | byte _ => "byte"
  | reference _ => "reference"
  | array .. => "array"
  | object .. => "object"

mutual

/-- Structural equality. The order of an object's fields does not matter. -/
def same : Value → Value → Bool
  | int a, int b => a = b
  | boolean a, boolean b => a = b
  | char a, char b => a = b
  | short a, short b => a = b
  | byte a, byte b => a = b
  | reference a, reference b => sameKey a b
  | array element items, array element' items' => element.same element' && sameItems items items'
  | object className fields, object className' fields' =>
    className = className' && fields.length = fields'.length && sameFields fields fields'
  | _, _ => false

/-- Whether two lists agree item by item. -/
def sameItems : List Value → List Value → Bool
  | [], [] => true
  | v :: vs, w :: ws => same v w && sameItems vs ws
  | _, _ => false

/-- Whether each field has an equal one of its name among `others`. -/
def sameFields : List (Text × Value) → List (Text × Value) → Bool
  | [], _ => true
  | (name, v) :: fields, others =>
    (match Table.get? name others with
      | some w => same v w
      | none => false) && sameFields fields others

end

/-! ## Display -/

def charText (n : Int) : Text := [CodeUnit.ofChar '\'', UInt16.ofNat (n % pow2 16).toNat, CodeUnit.ofChar '\'']

def referenceText : Option Number → Text
  | none => "null"
  | some ref => Text.ofString "@" ++ ref.text

mutual

def text : Value → Text
  | int n => Text.ofInt n
  | boolean b => if b then "true" else "false"
  | char n => charText n
  | short n => Text.ofString "(short)" ++ Text.ofInt n
  | byte n => Text.ofString "(byte)" ++ Text.ofInt n
  | reference ref => referenceText ref
  | array element items =>
    Text.ofString "[" ++ element.descriptor ++ ":" ++ Text.join "," (itemTexts items) ++ "]"
  | object className fields =>
    className ++ "\x7b" ++ Text.join ", " (fieldTexts fields) ++ "\x7d"

def itemTexts : List Value → List Text
  | [] => []
  | v :: vs => text v :: itemTexts vs

def fieldTexts : List (Text × Value) → List Text
  | [] => []
  | (name, v) :: fields => (name ++ "=" ++ text v) :: fieldTexts fields

end

end Value

end Bytecode
