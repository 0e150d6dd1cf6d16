/-
JSON values.

Whole numbers are kept apart from all others: a count or an offset is a whole number, and one
written with a point, an exponent or as minus zero is none, whatever its value.  An object
keeps the order its members were given in, which is the order they are written in.
-/
import EvmSafety.Text.Decimal

namespace EvmSafety

/-- A JSON value. -/
inductive Json
  /-- No value. -/
  | null
  /-- A truth value. -/
  | bool (b : Bool)
  /-- A number written as a whole number. -/
  | number (n : Int)
  /-- A number written in any other way, as it was written. -/
  | decimal (text : String)
  /-- A text. -/
  | string (text : String)
  /-- A list of values. -/
  | array (items : List Json)
  /-- Named values. -/
  | object (members : List (String × Json))
  deriving Repr, Inhabited

namespace Json

/-- A count or an offset. -/
def ofNat (n : Nat) : Json :=
  number n

/-- A value that may be missing. -/
def ofOption {α : Type} (f : α → Json) : Option α → Json
  | none => null
  | some a => f a

/-- The value of a member of an object. -/
def field? (key : String) : Json → Option Json
  | object members => (members.find? fun member => member.1 = key).map (·.2)
  | _ => none

/-- The members of a list of named values, with one more in its place among sorted keys. -/
def insertMember (member : String × Json) : List (String × Json) → List (String × Json)
  | [] => [member]
  | other :: members =>
    if member.1 < other.1 then member :: other :: members
    else other :: insertMember member members

mutual

/-- The value with the keys of all its objects in ascending order. -/
def sorted : Json → Json
  | array items => array (sortedItems items)
  | object members => object (sortedMembers members)
  | null => null
  | bool b => bool b
  | number n => number n
  | decimal text => decimal text
  | string text => string text

/-- Sort inside every item. -/
def sortedItems : List Json → List Json
  | [] => []
  | item :: items => item.sorted :: sortedItems items

/-- Sort the members by key, and inside every member. -/
def sortedMembers : List (String × Json) → List (String × Json)
  | [] => []
  | (key, value) :: members => insertMember (key, value.sorted) (sortedMembers members)

end

/-! ### Reading values -/

/-- A count or an offset. -/
def toCount? : Json → Option Nat
  | number (.ofNat n) => if n < Decimal.countLimit then some n else none
  | _ => none

/-- A list of counts or offsets. -/
def toCounts? : Json → Option (List Nat)
  | array items => items.mapM toCount?
  | _ => none

/-- A text. -/
def toText? : Json → Option String
  | string text => some text
  | _ => none

end Json

end EvmSafety
