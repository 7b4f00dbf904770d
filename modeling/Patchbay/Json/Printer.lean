import Patchbay.Json
import Patchbay.Number.Decimal

/-!
# JSON text

Values are written on one line (`Json.compact`) or one member to a line, indented by two spaces
(`Json.pretty`).  Numbers have the fewest digits that read back, without an exponent from
`0.00001` up to sixteen digits; a number that is not finite has no JSON text and is written as
`null`.
-/

namespace Patchbay.Json

/-- Numbers have a fraction, an even last digit in a tie, and an exponent outside `10 ^ -5 … 10 ^
15`. -/
def numberStyle : NumberStyle := ⟨.even, some (-5, 15), true, "null"⟩

/-! ## Strings -/

/-- A hexadecimal digit, in lower case. -/
def hexDigit (n : Nat) : Char := Nat.digitChar (n % 16)

/-- A character inside a string literal: the quote and the backslash are escaped, and so are the
control characters, by a letter where they have one. -/
def escapeChar (c : Char) : List Char :=
  if c = '\x22' then ['\\', '\x22']
  else if c = '\\' then ['\\', '\\']
  else if c = '\x08' then ['\\', 'b']
  else if c = '\x0c' then ['\\', 'f']
  else if c = '\n' then ['\\', 'n']
  else if c = '\r' then ['\\', 'r']
  else if c = '\t' then ['\\', 't']
  else if c.toNat < 32 then ['\\', 'u', '0', '0', hexDigit (c.toNat / 16), hexDigit c.toNat]
  else [c]

/-- A string literal. -/
def quote (s : String) : List Char :=
  '\x22' :: s.toList.flatMap escapeChar ++ ['\x22']

/-! ## Values -/

/-- A finite number, or `null`. -/
def numberText (x : Binary64) : List Char :=
  if x.isFinite then numberStyle.text x else ['n', 'u', 'l', 'l']

/-- The text of a value that is neither an array nor an object. -/
def scalarText : Json → List Char
  | bool true => ['t', 'r', 'u', 'e']
  | bool false => ['f', 'a', 'l', 's', 'e']
  | integer n => (toString n).toList
  | number x => numberText x
  | text s => quote s
  | _ => ['n', 'u', 'l', 'l']

mutual

/-- A value on one line, without spaces. -/
def compactChars : Json → List Char
  | array items => '[' :: (compactItems items).drop 1 ++ [']']
  | object members => '\x7b' :: (compactMembers members).drop 1 ++ ['\x7d']
  | scalar => scalarText scalar

/-- Each item after a comma. -/
def compactItems : List Json → List Char
  | [] => []
  | item :: rest => ',' :: compactChars item ++ compactItems rest

/-- Each member after a comma. -/
def compactMembers : List (String × Json) → List Char
  | [] => []
  | (key, value) :: rest => ',' :: quote key ++ ':' :: compactChars value ++ compactMembers rest

end

/-- A line break and the indentation of a depth. -/
def newline (depth : Nat) : List Char := '\n' :: List.replicate (2 * depth) ' '

mutual

/-- A value over several lines, its inner lines indented one step deeper than `depth`; an array or
an object without contents stays on the line. -/
def prettyChars (depth : Nat) : Json → List Char
  | array [] => ['[', ']']
  | array (item :: rest) =>
    '[' :: (prettyItems (depth + 1) (item :: rest)).drop 1 ++ newline depth ++ [']']
  | object [] => ['\x7b', '\x7d']
  | object (member :: rest) =>
    '\x7b' :: (prettyMembers (depth + 1) (member :: rest)).drop 1 ++ newline depth ++ ['\x7d']
  | scalar => scalarText scalar

/-- Each item on a line of its own, after a comma. -/
def prettyItems (depth : Nat) : List Json → List Char
  | [] => []
  | item :: rest => ',' :: newline depth ++ prettyChars depth item ++ prettyItems depth rest

/-- Each member on a line of its own, after a comma. -/
def prettyMembers (depth : Nat) : List (String × Json) → List Char
  | [] => []
  | (key, value) :: rest =>
    ',' :: newline depth ++ quote key ++ ':' :: ' ' :: prettyChars depth value
      ++ prettyMembers depth rest

end

/-- The text of a value on one line. -/
def compact (value : Json) : String := String.ofList (compactChars value)

/-- The text of a value, one member to a line. -/
def pretty (value : Json) : String := String.ofList (prettyChars 0 value)

end Patchbay.Json
