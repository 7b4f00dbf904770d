import Patchbay.Datum.Shape
import Patchbay.Json.Printer

/-!
# Property values

The pattern properties of a node are named flags, numbers and texts.  In the emitted code a number
has no exponent and a whole number no fraction, and a text is a JSON string literal, which the
pattern language shares.
-/

namespace Patchbay

/-- The value of a pattern property. -/
inductive Value where
  | flag (on : Bool)
  | number (x : Binary64)
  | text (s : String)
  deriving DecidableEq, Repr

namespace Value

/-- Numbers in code are written in full, and of two equally near forms the greater is taken. -/
def numberStyle : NumberStyle := ⟨.up, none, false, "NaN"⟩

/-- The number that a value is, if it is one. -/
def number? : Value → Option Binary64
  | number x => some x
  | _ => none

/-- No infinity and not a not-a-number. -/
def isFinite : Value → Bool
  | number x => x.isFinite
  | _ => true

/-- A value as a literal of the pattern language. -/
def literalChars : Value → List Char
  | flag true => ['t', 'r', 'u', 'e']
  | flag false => ['f', 'a', 'l', 's', 'e']
  | number x => numberStyle.text x
  | text s => Json.quote s

/-- A value as a literal of the pattern language. -/
def literal (v : Value) : String := String.ofList v.literalChars

/-- A value in JSON; a number that is not finite is `null`. -/
def toJson : Value → Json
  | flag on => .bool on
  | number x => if x.isFinite then .number x else .null
  | text s => .text s

/-- The value that a JSON value is; `null`, arrays and objects are none. -/
def ofJson? : Json → Option Value
  | .bool b => some (flag b)
  | .integer n => some (number (.ofInt n))
  | .number x => some (number x)
  | .text s => some (text s)
  | _ => none

/-- Reads a value. -/
def decode : Decoder Value
  | _, .bool b => some (flag b)
  | _, .integer n => some (number (.ofInt n))
  | _, .number x => some (number x)
  | _, .text s => some (text s)
  | _, _ => none

end Value

/-- A named value. -/
structure Property where
  name : String
  value : Value
  deriving DecidableEq, Repr

namespace Property

/-- A property in JSON. -/
def toJson (p : Property) : Json := .object [("name", .text p.name), ("value", p.value.toJson)]

/-- Reads a property. -/
def decode : Decoder Property := fun dialect d => do
  let r ← Record.of? ["name", "value"] dialect d
  some ⟨← r.required "name" Datum.text?, ← r.required "value" Value.decode⟩

end Property

end Patchbay
