import Patchbay.Number.Binary64

/-!
# JSON values

A JSON value whose numbers keep the distinction that documents make: an integer of 64 bits stays
an integer, and everything else is a binary64 number.  Objects are lists of members in the order
in which they are written.
-/

namespace Patchbay

/-- A JSON value. -/
inductive Json where
  | null
  | bool (value : Bool)
  | integer (value : Int)
  | number (value : Binary64)
  | text (value : String)
  | array (items : List Json)
  | object (members : List (String × Json))
  deriving Inhabited, BEq, Repr

namespace Json

/-- What a value is called in a message about it. -/
def kindName : Json → String
  | null => "null"
  | bool _ => "a bool"
  | integer _ => "a number"
  | number _ => "a number"
  | text _ => "a string"
  | array _ => "an array"
  | object _ => "an object"

/-- A text or `null`. -/
def ofText? : Option String → Json
  | none => null
  | some s => text s

/-- An array of texts. -/
def ofTexts (items : List String) : Json := array (items.map text)

/-- A natural number. -/
def ofNat (n : Nat) : Json := integer n

end Json

end Patchbay
