import Patchbay.Datum
import Patchbay.Json.Numeral

/-!
# Reading JSON text

`Json.read?` accepts exactly the texts of RFC 8259: one value, surrounded by blanks only.  What
such a text cannot express as a value is `Datum.unreadable`, in its place: a number too large, a
string with half of a surrogate pair (or an object with such a key), an array or object nested
deeper than 127.
-/

namespace Patchbay.Json

/-- The greatest depth of arrays and objects whose contents are read. -/
def nestingLimit : Nat := 127

/-- The blanks between the parts of a text. -/
def isBlank (c : Char) : Bool := c == ' ' || c == '\t' || c == '\n' || c == '\r'

/-- What follows the blanks. -/
def skipBlanks (s : List Char) : List Char := s.dropWhile isBlank

/-! ## Strings -/

/-- A part of a string: a character, or the 16 bits of a `\u` escape. -/
inductive Piece where
  | char (c : Char)
  | unit (bits : Nat)

/-- The value of a hexadecimal digit of either case. -/
def hexValue? (c : Char) : Option Nat :=
  if '0' ≤ c ∧ c ≤ '9' then some (c.toNat - '0'.toNat)
  else if 'a' ≤ c ∧ c ≤ 'f' then some (c.toNat - 'a'.toNat + 10)
  else if 'A' ≤ c ∧ c ≤ 'F' then some (c.toNat - 'A'.toNat + 10)
  else none

/-- The number that hexadecimal digits write. -/
def hexNumber? (digits : List Char) : Option Nat :=
  digits.foldlM (fun n c => (hexValue? c).map (16 * n + ·)) 0

/-- The character that a letter after a backslash stands for. -/
def unescape? (c : Char) : Option Char :=
  if c = '\x22' ∨ c = '\\' ∨ c = '/' then some c
  else if c = 'b' then some '\x08'
  else if c = 'f' then some '\x0c'
  else if c = 'n' then some '\n'
  else if c = 'r' then some '\r'
  else if c = 't' then some '\t'
  else none

/-- The parts of a string up to its closing quote, and what follows it. -/
def stringPieces? : List Char → Option (List Piece × List Char)
  | [] => none
  | '\\' :: 'u' :: a :: b :: c :: d :: rest => do
    let bits ← hexNumber? [a, b, c, d]
    let (pieces, rest) ← stringPieces? rest
    some (.unit bits :: pieces, rest)
  | '\\' :: c :: rest => do
    let c ← unescape? c
    let (pieces, rest) ← stringPieces? rest
    some (.char c :: pieces, rest)
  | c :: rest =>
    if c = '\x22' then some ([], rest)
    else if c = '\\' ∨ c.toNat < 32 then none
    else do
      let (pieces, rest) ← stringPieces? rest
      some (.char c :: pieces, rest)

/-- The characters of a string; none if it holds half of a surrogate pair. -/
def joinPieces? : List Piece → Option (List Char)
  | [] => some []
  | .char c :: rest => (joinPieces? rest).map (c :: ·)
  | .unit high :: .unit low :: rest =>
    if 0xD800 ≤ high ∧ high < 0xDC00 then
      if 0xDC00 ≤ low ∧ low < 0xE000 then
        (joinPieces? rest).map
          (Char.ofNat (0x10000 + (high - 0xD800) * 0x400 + (low - 0xDC00)) :: ·)
      else none
    else if 0xDC00 ≤ high ∧ high < 0xE000 then none
    else (joinPieces? (.unit low :: rest)).map (Char.ofNat high :: ·)
  | .unit bits :: rest =>
    if 0xD800 ≤ bits ∧ bits < 0xE000 then none
    else (joinPieces? rest).map (Char.ofNat bits :: ·)

/-- The text that pieces spell, if they do. -/
def textOf? (pieces : List Piece) : Option String := (joinPieces? pieces).map String.ofList

/-! ## Numerals -/

/-- A decimal digit. -/
def isDigit (c : Char) : Bool := decide ('0' ≤ c) && decide (c ≤ '9')

/-- The values of the digits at the front, and what follows them. -/
def takeDigits (s : List Char) : List Nat × List Char :=
  ((s.takeWhile isDigit).map fun c => c.toNat - '0'.toNat, s.dropWhile isDigit)

/-- The number that digits write. -/
def digitsValue (digits : List Nat) : Nat := digits.foldl (fun n d => 10 * n + d) 0

/-- The integer digits: a lone zero, or digits that do not begin with one. -/
def wholeDigits? : List Char → Option (List Nat × List Char)
  | '0' :: rest => some ([0], rest)
  | s => match takeDigits s with
    | ([], _) => none
    | taken => some taken

/-- The digits after a decimal point, if there is a point. -/
def fractionDigits? : List Char → Option (List Nat × List Char)
  | '.' :: rest => match takeDigits rest with
    | ([], _) => none
    | taken => some taken
  | s => some ([], s)

/-- An optional sign, true for minus. -/
def takeSign : List Char → Bool × List Char
  | '-' :: rest => (true, rest)
  | '+' :: rest => (false, rest)
  | s => (false, s)

/-- The exponent after an `e`, if there is one. -/
def exponentPart? : List Char → Option (Option Int × List Char)
  | c :: rest =>
    if c = 'e' ∨ c = 'E' then
      let (negative, rest) := takeSign rest
      match takeDigits rest with
      | ([], _) => none
      | (digits, rest) =>
        let size : Int := digitsValue digits
        some (some (if negative then -size else size), rest)
    else some (none, c :: rest)
  | [] => some (none, [])

/-- The numeral at the front of a text. -/
def numeral? (s : List Char) : Option (Numeral × List Char) := do
  let (negative, s) := match s with
    | '-' :: rest => (true, rest)
    | _ => (false, s)
  let (whole, s) ← wholeDigits? s
  let (fraction, s) ← fractionDigits? s
  let (exponent, s) ← exponentPart? s
  some (⟨negative, whole, fraction, fraction.isEmpty && exponent.isNone, exponent.getD 0⟩, s)

/-- The datum that a numeral writes. -/
def Numeral.datum (n : Numeral) : Datum :=
  match n.integer? with
  | some i => .integer i
  | none => match n.number? with
    | some x => .number x
    | none => .unreadable

/-! ## Values -/

/-- An array or object at a depth, unless it is nested too deeply. -/
def nested (depth : Nat) (d : Datum) : Datum := if depth ≤ nestingLimit then d else .unreadable

/-- A table of members, unless one of the keys is unreadable. -/
def tableOf (members : List (Option String × Datum)) : Datum :=
  match members.mapM (fun m => m.1.map (·, m.2)) with
  | some members => .table members
  | none => .unreadable

mutual

/-- The value at the front of a text, inside `depth` arrays and objects.  Every step takes fuel. -/
def value? : (fuel : Nat) → (depth : Nat) → List Char → Option (Datum × List Char)
  | 0, _, _ => none
  | fuel + 1, depth, s =>
    match skipBlanks s with
    | 'n' :: 'u' :: 'l' :: 'l' :: rest => some (.null, rest)
    | 't' :: 'r' :: 'u' :: 'e' :: rest => some (.bool true, rest)
    | 'f' :: 'a' :: 'l' :: 's' :: 'e' :: rest => some (.bool false, rest)
    | '\x22' :: rest => do
      let (pieces, rest) ← stringPieces? rest
      some (((textOf? pieces).map Datum.text).getD .unreadable, rest)
    | '[' :: rest =>
      match skipBlanks rest with
      | ']' :: rest => some (nested (depth + 1) (.list []), rest)
      | rest => do
        let (items, rest) ← items? fuel (depth + 1) rest
        some (nested (depth + 1) (.list items), rest)
    | '\x7b' :: rest =>
      match skipBlanks rest with
      | '\x7d' :: rest => some (nested (depth + 1) (.table []), rest)
      | rest => do
        let (members, rest) ← members? fuel (depth + 1) rest
        some (nested (depth + 1) (tableOf members), rest)
    | s => (numeral? s).map fun (n, rest) => (n.datum, rest)

/-- The items of an array up to its end. -/
def items? : (fuel : Nat) → (depth : Nat) → List Char → Option (List Datum × List Char)
  | 0, _, _ => none
  | fuel + 1, depth, s => do
    let (item, rest) ← value? fuel depth s
    match skipBlanks rest with
    | ',' :: rest => do
      let (items, rest) ← items? fuel depth rest
      some (item :: items, rest)
    | ']' :: rest => some ([item], rest)
    | _ => none

/-- The members of an object up to its end. -/
def members? : (fuel : Nat) → (depth : Nat) → List Char →
    Option (List (Option String × Datum) × List Char)
  | 0, _, _ => none
  | fuel + 1, depth, s =>
    match skipBlanks s with
    | '\x22' :: rest => do
      let (pieces, rest) ← stringPieces? rest
      match skipBlanks rest with
      | ':' :: rest => do
        let (value, rest) ← value? fuel depth rest
        match skipBlanks rest with
        | ',' :: rest => do
          let (members, rest) ← members? fuel depth rest
          some ((textOf? pieces, value) :: members, rest)
        | '\x7d' :: rest => some ([(textOf? pieces, value)], rest)
        | _ => none
      | _ => none
    | _ => none

end

/-- The datum that a JSON text writes.  Each character pays for at most two steps. -/
def read? (text : String) : Option Datum := do
  let s := text.toList
  let (datum, rest) ← value? (2 * s.length + 2) 0 s
  if (skipBlanks rest).isEmpty then some datum else none

end Patchbay.Json
