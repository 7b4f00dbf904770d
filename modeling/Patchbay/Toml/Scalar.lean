import Patchbay.Datum
import Patchbay.Number.Decimal

/-!
# Numbers, dates and times of TOML

Integers have 64 bits and are written in decimal, or without a sign in hexadecimal, octal or
binary; an underscore may stand between digits.  A number with a fraction or an exponent is the
binary64 number nearest to what is written; one too large to be a number is refused, unless it is
negative.  Dates and times are checked and otherwise not looked into.
-/

namespace Patchbay.Toml

/-! ## Writing -/

/-- Numbers are written in full, whole ones with a fraction. -/
def numberStyle : NumberStyle := ⟨.up, none, true, "nan"⟩

/-- A number as a value. -/
def writeNumber (x : Binary64) : List Char := numberStyle.text x

/-! ## Digits -/

/-- A decimal digit. -/
def isDecimal (c : Char) : Bool := decide ('0' ≤ c) && decide (c ≤ '9')

/-- The value of a digit of any base up to sixteen. -/
def digitValue (c : Char) : Nat :=
  if isDecimal c then c.toNat - '0'.toNat
  else if 'a' ≤ c ∧ c ≤ 'f' then c.toNat - 'a'.toNat + 10
  else c.toNat - 'A'.toNat + 10

/-- A digit of a base. -/
def isDigitOf (base : Nat) (c : Char) : Bool :=
  (isDecimal c || (decide ('a' ≤ c) && decide (c ≤ 'f'))
      || (decide ('A' ≤ c) && decide (c ≤ 'F')))
    && decide (digitValue c < base)

/-- Further digits, each of which may follow an underscore, and what follows them. -/
def moreDigits? (base : Nat) : List Char → Option (List Nat × List Char)
  | '_' :: c :: rest =>
    if isDigitOf base c then
      (moreDigits? base rest).map fun (ds, rest) => (digitValue c :: ds, rest)
    else none
  | c :: rest =>
    if isDigitOf base c then
      (moreDigits? base rest).map fun (ds, rest) => (digitValue c :: ds, rest)
    else if c = '_' then none
    else some ([], c :: rest)
  | [] => some ([], [])

/-- Digits of a base, at least one, and what follows them. -/
def digits? (base : Nat) : List Char → Option (List Nat × List Char)
  | [] => none
  | c :: rest =>
    if isDigitOf base c then
      (moreDigits? base rest).map fun (ds, rest) => (digitValue c :: ds, rest)
    else none

/-- The number that digits of a base write. -/
def digitsValue (base : Nat) (digits : List Nat) : Nat := digits.foldl (fun n d => base * n + d) 0

/-- The digits of a decimal integer: a lone zero, or digits that do not begin with one. -/
def wholeDigits? : List Char → Option (List Nat × List Char)
  | '0' :: rest => some ([0], rest)
  | s => digits? 10 s

/-! ## Numbers -/

/-- An integer of 64 bits, from `-2 ^ 63` to `2 ^ 63 - 1`. -/
def integer? (n : Int) : Option Datum :=
  if -9223372036854775808 ≤ n ∧ n ≤ 9223372036854775807 then some (.integer n) else none

/-- An optional sign, true for minus. -/
def takeSign : List Char → Bool × List Char
  | '-' :: rest => (true, rest)
  | '+' :: rest => (false, rest)
  | s => (false, s)

/-- The digits after a decimal point, if there is a point. -/
def fraction? : List Char → Option (Option (List Nat) × List Char)
  | '.' :: rest => (digits? 10 rest).map fun (ds, rest) => (some ds, rest)
  | s => some (none, s)

/-- The exponent after an `e`, if there is one. -/
def exponent? : List Char → Option (Option Int × List Char)
  | c :: rest =>
    if c = 'e' ∨ c = 'E' then
      let (negative, rest) := takeSign rest
      (digits? 10 rest).map fun (ds, rest) =>
        let size : Int := digitsValue 10 ds
        (some (if negative then -size else size), rest)
    else some (none, c :: rest)
  | [] => some (none, [])

/-- The number that sign, integer digits, fraction digits and exponent write. -/
def number? (negative : Bool) (whole fraction : List Nat) (exponent : Int) : Option Datum :=
  let x := Decimal.toBinary64 negative
    ⟨digitsValue 10 (whole ++ fraction), exponent - fraction.length⟩
  if x = .infinite false then none else some (.number x)

/-- A decimal number after its sign, and what follows it. -/
def decimal? (negative : Bool) (s : List Char) : Option (Datum × List Char) := do
  let (whole, s) ← wholeDigits? s
  let (fraction, s) ← fraction? s
  let (exponent, s) ← exponent? s
  let datum ←
    if fraction.isNone && exponent.isNone then
      let size : Int := digitsValue 10 whole
      integer? (if negative then -size else size)
    else number? negative whole (fraction.getD []) (exponent.getD 0)
  some (datum, s)

/-- An integer of another base after its mark, and what follows it. -/
def radix? (base : Nat) (s : List Char) : Option (Datum × List Char) := do
  let (digits, s) ← digits? base s
  some (← integer? (digitsValue base digits), s)

/-- A number after its sign, and what follows it. -/
def unsigned? (negative : Bool) : List Char → Option (Datum × List Char)
  | 'i' :: 'n' :: 'f' :: rest => some (.number (.infinite negative), rest)
  | 'n' :: 'a' :: 'n' :: rest => some (.number .nan, rest)
  | s => decimal? negative s

/-- A number, and what follows it. -/
def numeral? : List Char → Option (Datum × List Char)
  | '0' :: 'x' :: rest => radix? 16 rest
  | '0' :: 'o' :: rest => radix? 8 rest
  | '0' :: 'b' :: rest => radix? 2 rest
  | s => let (negative, rest) := takeSign s; unsigned? negative rest

/-! ## Dates and times -/

/-- A number of exactly `count` decimal digits, and what follows it. -/
def fixedDigits? (count : Nat) (s : List Char) : Option (Nat × List Char) :=
  let digits := s.take count
  if digits.length = count ∧ digits.all isDecimal then
    some (digitsValue 10 (digits.map digitValue), s.drop count)
  else none

/-- What follows a character, if it comes first. -/
def skip? (c : Char) : List Char → Option (List Char)
  | [] => none
  | d :: rest => if d = c then some rest else none

/-- A number of two digits within bounds, and what follows it. -/
def twoDigits? (least greatest : Nat) (s : List Char) : Option (Nat × List Char) := do
  let (n, rest) ← fixedDigits? 2 s
  if least ≤ n ∧ n ≤ greatest then some (n, rest) else none

/-- A year of 366 days. -/
def isLeap (year : Nat) : Bool := year % 4 == 0 && (year % 100 != 0 || year % 400 == 0)

/-- The number of days of a month. -/
def daysOf (year month : Nat) : Nat :=
  if month = 2 then if isLeap year then 29 else 28
  else if month = 4 ∨ month = 6 ∨ month = 9 ∨ month = 11 then 30
  else 31

/-- What follows a date. -/
def date? (s : List Char) : Option (List Char) := do
  let (year, s) ← fixedDigits? 4 s
  let (month, s) ← twoDigits? 1 12 (← skip? '-' s)
  let (_, s) ← twoDigits? 1 (daysOf year month) (← skip? '-' s)
  some s

/-- What follows a time of day. -/
def time? (s : List Char) : Option (List Char) := do
  let (_, s) ← twoDigits? 0 23 s
  let (_, s) ← twoDigits? 0 59 (← skip? ':' s)
  let (_, s) ← twoDigits? 0 60 (← skip? ':' s)
  match s with
  | '.' :: c :: rest => if isDecimal c then some (rest.dropWhile isDecimal) else none
  | _ => some s

/-- What follows the offset of a time, if there is one. -/
def offset? : List Char → Option (List Char)
  | [] => some []
  | c :: rest =>
    if c = 'Z' ∨ c = 'z' then some rest
    else if c = '+' ∨ c = '-' then do
      let (_, s) ← twoDigits? 0 23 rest
      let (_, s) ← twoDigits? 0 59 (← skip? ':' s)
      some s
    else some (c :: rest)

/-- What follows a date with or without a time. -/
def dateAndTime? (s : List Char) : Option (List Char) := do
  let s ← date? s
  match s with
  | c :: rest =>
    if c = 'T' ∨ c = 't' then offset? (← time? rest)
    else if c = ' ' then
      match time? rest with
      | some rest => offset? rest
      | none => some s
    else some s
  | [] => some []

/-- A date, a time or both, and what follows. -/
def moment? (s : List Char) : Option (Datum × List Char) :=
  ((dateAndTime? s).orElse fun _ => time? s).map fun rest => (.moment, rest)

/-- A date, a time or a number, and what follows. -/
def scalar? (s : List Char) : Option (Datum × List Char) :=
  (moment? s).orElse fun _ => numeral? s

end Patchbay.Toml
