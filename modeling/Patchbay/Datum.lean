import Patchbay.Dictionary
import Patchbay.Json

/-!
# Data as read from a document

A document, whatever its format, is read into a `Datum`: a tree that still shows what was
written.  The members of a table keep their order and their repetitions, and a part that has
correct syntax but no meaning (a number too large for the format, half of a surrogate pair,
nesting beyond the limit) is present as `Datum.unreadable`.  A reader of records that passes such
a part over is not disturbed by it; one that looks at it fails.
-/

namespace Patchbay

/-- A datum of a document. -/
inductive Datum where
  | null
  | bool (value : Bool)
  | integer (value : Int)
  | number (value : Binary64)
  | text (value : String)
  /-- A date, a time or both. -/
  | moment
  | list (items : List Datum)
  | table (members : List (String × Datum))
  | unreadable
  deriving Inhabited, BEq, Repr

namespace Datum

mutual

/-- No part of the datum, however deep, is unreadable. -/
def isReadable : Datum → Bool
  | .list items => areReadable items
  | .table members => membersAreReadable members
  | .unreadable => false
  | _ => true

/-- Every item is readable. -/
def areReadable : List Datum → Bool
  | [] => true
  | item :: rest => isReadable item && areReadable rest

/-- Every member's value is readable. -/
def membersAreReadable : List (String × Datum) → Bool
  | [] => true
  | (_, value) :: rest => isReadable value && membersAreReadable rest

end

/-! ## JSON values as data -/

mutual

/-- A JSON value as a datum. -/
def ofJson : Json → Datum
  | .null => .null
  | .bool b => .bool b
  | .integer n => .integer n
  | .number x => .number x
  | .text s => .text s
  | .array items => .list (ofJsonItems items)
  | .object members => .table (ofJsonMembers members)

/-- Every item as a datum. -/
def ofJsonItems : List Json → List Datum
  | [] => []
  | item :: rest => ofJson item :: ofJsonItems rest

/-- Every member's value as a datum. -/
def ofJsonMembers : List (String × Json) → List (String × Datum)
  | [] => []
  | (key, value) :: rest => (key, ofJson value) :: ofJsonMembers rest

end

mutual

/-- The JSON value that a datum is, with the members of its objects in the order of their keys; of
members with one key the last remains.  There is none for a part that JSON does not have. -/
def toJson? : Datum → Option Json
  | .null => some .null
  | .bool b => some (.bool b)
  | .integer n => some (.integer n)
  | .number x => some (.number x)
  | .text s => some (.text s)
  | .moment => none
  | .list items => (toJsonItems? items).map .array
  | .table members =>
    (toJsonMembers? members).map fun ms => .object (Dictionary.ofList ms).entries
  | .unreadable => none

/-- The JSON values of all items. -/
def toJsonItems? : List Datum → Option (List Json)
  | [] => some []
  | item :: rest => do some ((← toJson? item) :: (← toJsonItems? rest))

/-- The JSON values of all members. -/
def toJsonMembers? : List (String × Datum) → Option (List (String × Json))
  | [] => some []
  | (key, value) :: rest => do some ((key, ← toJson? value) :: (← toJsonMembers? rest))

end

end Datum

end Patchbay
