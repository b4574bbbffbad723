import Bytecode.Number
import Bytecode.Table
/-!
# JSON values

Class files are JSON. The members of an object keep an order, since error messages quote records:
`Json.ofMembers` puts the members whose names are array indices first, in ascending order, and the
others in the order in which their names first appear; of equal names the last value counts.
-/
namespace Bytecode

inductive Json where
  | null
  | bool (b : Bool)
  | number (n : Number)
  | string (t : Text)
  | array (items : List Json)
  | object (members : List (Text × Json))
deriving Inhabited, Repr

namespace Json

/-- The array index that a member name spells: a natural number below 2^32 - 1 without leading
zeros. -/
def indexOfName? (name : Text) : Option Nat :=
  let n := Text.digitsValue name
  if name.all CodeUnit.isDigit && n < 4294967295 && name = Text.ofNat n then some n else none

/-- Whether a new member stands before one that is there already. -/
def precedes (name other : Text) : Bool :=
  match indexOfName? name, indexOfName? other with
  | some n, some m => n < m
  | some _, none => true
  | none, _ => false

/-- Puts a member that is not there yet into its place. -/
def place (name : Text) (value : Json) : List (Text × Json) → List (Text × Json)
  | [] => [(name, value)]
  | member :: rest =>
    if precedes name member.1 then (name, value) :: member :: rest
    else member :: place name value rest

/-- Sets a member, in its place if there is one of that name. -/
def setMember (name : Text) (value : Json) (members : List (Text × Json)) : List (Text × Json) :=
  if members.any (·.1 = name) then
    members.map fun member => if member.1 = name then (name, value) else member
  else place name value members

def ofMembers (members : List (Text × Json)) : Json :=
  object (members.foldl (fun done member => setMember member.1 member.2 done) [])

/-- The value of a member of an object; what is no object has no members. -/
def get? (key : Text) : Json → Option Json
  | object members => Table.get? key members
  | _ => none

def string? : Json → Option Text
  | string t => some t
  | _ => none

def items? : Json → Option (List Json)
  | array items => some items
  | _ => none

def number? : Json → Option Number
  | number n => some n
  | _ => none

def isObject : Json → Bool
  | object _ => true
  | _ => false

end Json

end Bytecode
