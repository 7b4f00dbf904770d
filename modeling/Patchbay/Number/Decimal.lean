import Patchbay.Number.Binary64

/-!
# Decimal text of binary64 numbers

A finite number is written with the fewest significant digits that read back as the same number.
The digits are found by search: on the grids of multiples of `10 ^ e`, taken from coarse to fine,
the two points next to the number are read back, and the first grid with a point that reads back
as the number gives the digits.  That what is written reads back as the number is therefore part
of the search and not a property of a digit-generation algorithm.

How digits become text (where positional notation ends, whether whole numbers keep a fraction,
which of two equally near points is taken) is a `NumberStyle`, chosen by each format that writes
numbers.
-/

namespace Patchbay

/-- The decimal `coefficient · 10 ^ exponent`. -/
structure Decimal where
  coefficient : Nat
  exponent : Int
  deriving DecidableEq, Repr

namespace Decimal

/-- The binary64 number nearest to `± coefficient · 10 ^ exponent`.  Decimals far outside the
range of the format are decided by their size alone, so that an absurd exponent costs nothing. -/
def toBinary64 (negative : Bool) (d : Decimal) : Binary64 :=
  if d.coefficient = 0 then .zero negative
  else if 400 < d.exponent then .infinite negative
  else if d.exponent < -400 - (Nat.log2 d.coefficient : Int) then .zero negative
  else .ofRatio negative (d.coefficient * Binary64.powerNum 10 d.exponent)
    (Binary64.powerDen 10 d.exponent)

end Decimal

/-- Which of two equally near points of a grid is taken. -/
inductive TieRule where
  | up
  | even
  deriving DecidableEq, Repr

namespace Binary64

/-- The points of the grid of multiples of `10 ^ e` next to `mantissa · 2 ^ exponent`, by their
coefficients, nearest first. -/
def gridPoints (tie : TieRule) (mantissa : Nat) (exponent e : Int) : List Nat :=
  let num := mantissa * powerNum 2 exponent * powerDen 10 e
  let den := powerDen 2 exponent * powerNum 10 e
  let below := num / den
  let rest := num % den
  if 2 * rest < den then [below, below + 1]
  else if den < 2 * rest then [below + 1, below]
  else if tie = .even ∧ below % 2 = 0 then [below, below + 1]
  else [below + 1, below]

/-- The first point that reads back as `x`, on the grids from `10 ^ e` downwards. -/
def searchGrids (tie : TieRule) (x : Binary64) (mantissa : Nat) (exponent : Int) :
    (grids : Nat) → (e : Int) → Option Decimal
  | 0, _ => none
  | grids + 1, e =>
    match (gridPoints tie mantissa exponent e).find?
        (fun c => decide (Decimal.toBinary64 false ⟨c, e⟩ = x)) with
    | some c => some ⟨c, e⟩
    | none => searchGrids tie x mantissa exponent grids (e - 1)

/-- All decimal digits of `mantissa · 2 ^ exponent`. -/
def exactDecimal (mantissa : Nat) (exponent : Int) : Decimal :=
  if 0 ≤ exponent then ⟨mantissa * powerNum 2 exponent, 0⟩
  else ⟨mantissa * powerDen 5 exponent, exponent⟩

/-- A decimal of fewest digits that reads back as `mantissa · 2 ^ exponent`, the nearest such
one.  The search starts at a power of ten above the number; seventeen digits always suffice, and
the exact digits stand in where no grid was met. -/
def shortestDecimal (tie : TieRule) (mantissa : Nat) (exponent : Int)
    (h : Canonical mantissa exponent) : Decimal :=
  if mantissa = 0 then ⟨0, 0⟩
  else
    let top := ((Nat.log2 mantissa : Int) + exponent + 1) * 30103 / 100000 + 1
    (searchGrids tie (.finite false mantissa exponent h) mantissa exponent 24 top).getD
      (exactDecimal mantissa exponent)

end Binary64

/-- How a format writes numbers. -/
structure NumberStyle where
  /-- The point taken of two equally near ones. -/
  tie : TieRule
  /-- The exponents of the leading digit for which a number is written without an exponent; all of
  them if there is no range. -/
  positional : Option (Int × Int)
  /-- Whole numbers in positional notation end in `.0`. -/
  pointZero : Bool
  /-- The text of a not-a-number. -/
  nan : String
  deriving Repr

namespace NumberStyle

/-- Zeros, as many as a non-negative integer says. -/
def zeros (count : Int) : List Char := List.replicate count.toNat '0'

/-- Digits with the decimal point after the first `point` of them, filled up with zeros on either
side where the point lies outside. -/
def positionalText (style : NumberStyle) (digits : List Char) (point : Int) : List Char :=
  if point ≤ 0 then '0' :: '.' :: zeros (-point) ++ digits
  else if digits.length ≤ point then
    digits ++ zeros (point - digits.length) ++ if style.pointZero then ['.', '0'] else []
  else digits.take point.toNat ++ '.' :: digits.drop point.toNat

/-- Digits with the point after the first one, and the exponent of that one with its sign. -/
def scientificText (digits : List Char) (exponent : Int) : List Char :=
  digits.take 1 ++ (if digits.length ≤ 1 then [] else '.' :: digits.drop 1)
    ++ 'e' :: (if exponent < 0 then '-' else '+') :: Nat.toDigits 10 exponent.natAbs

/-- The text of a positive decimal. -/
def decimalText (style : NumberStyle) (d : Decimal) : List Char :=
  let digits := Nat.toDigits 10 d.coefficient
  let point := digits.length + d.exponent
  match style.positional with
  | some (least, greatest) =>
    if least ≤ point - 1 ∧ point - 1 ≤ greatest then style.positionalText digits point
    else scientificText digits (point - 1)
  | none => style.positionalText digits point

/-- The text of a number without its sign. -/
def magnitudeText (style : NumberStyle) : Binary64 → List Char
  | .finite _ mantissa exponent h =>
    if mantissa = 0 then '0' :: if style.pointZero then ['.', '0'] else []
    else style.decimalText (Binary64.shortestDecimal style.tie mantissa exponent h)
  | .infinite _ => ['i', 'n', 'f']
  | .nan => style.nan.toList

/-- The text of a number: a minus sign for negative ones, `-0` among them, and its magnitude. -/
def text (style : NumberStyle) (x : Binary64) : List Char :=
  match x with
  | .finite true .. | .infinite true => '-' :: style.magnitudeText x
  | _ => style.magnitudeText x

end NumberStyle

end Patchbay
