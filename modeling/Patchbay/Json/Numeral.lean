import Patchbay.Number.Binary64

/-!
# Numerals of JSON text

A numeral without fraction and exponent that fits 64 bits is an integer.  Any other numeral is
read in two steps.  Its digits are gathered into a whole number of 64 bits, from the left and as
far as they fit: integer digits beyond that only raise the power of ten, fraction digits beyond
that are dropped. The number nearest to it is then multiplied or divided by the power of ten.
Each step rounds, so the result is near the decimal that is written and not always nearest to it.
-/

namespace Patchbay.Json

/-- A numeral as it is written; digits are given by their values. -/
structure Numeral where
  negative : Bool
  whole : List Nat
  fraction : List Nat
  /-- Nothing but a sign and digits is written. -/
  plain : Bool
  exponent : Int
  deriving DecidableEq, Repr

namespace Numeral

/-- The greatest whole number of 64 bits, `2 ^ 64 - 1`. -/
def greatest : Nat := 18446744073709551615

/-- Appends integer digits to a whole number as far as they fit; with the number of those left
over. -/
def appendWhole : (significand : Nat) → List Nat → Nat × Nat
  | significand, [] => (significand, 0)
  | significand, d :: ds =>
    if significand * 10 + d ≤ greatest then appendWhole (significand * 10 + d) ds
    else (significand, ds.length + 1)

/-- Appends fraction digits to a whole number as far as they fit; with the number of those taken. -/
def appendFraction : (significand : Nat) → List Nat → Nat × Nat
  | significand, [] => (significand, 0)
  | significand, d :: ds =>
    if significand * 10 + d ≤ greatest then
      let (total, taken) := appendFraction (significand * 10 + d) ds
      (total, taken + 1)
    else (significand, 0)

/-- The power of ten up to `10 ^ 308`. -/
def powerOfTen (n : Nat) : Binary64 := .ofNat (Binary64.powerNum 10 n)

/-- The quotient `x / 10 ^ n`, by `10 ^ 308` at a time. -/
def divideByPower (x : Binary64) (n : Nat) : Binary64 :=
  if n ≤ 308 then x / powerOfTen n
  else if x.isZero then x
  else divideByPower (x / powerOfTen 308) (n - 308)
termination_by n

/-- The product `x · 10 ^ exponent`, if that is finite. -/
def scale? (x : Binary64) (exponent : Int) : Option Binary64 :=
  if exponent < 0 then some (divideByPower x exponent.natAbs)
  else if exponent ≤ 308 then
    let product := x * powerOfTen exponent.toNat
    if product.isFinite then some product else none
  else if x.isZero then some x
  else none

/-- The value of a numeral read as a number; none if it is too large. -/
def number? (n : Numeral) : Option Binary64 :=
  let (integral, dropped) := appendWhole 0 n.whole
  let (significand, taken) := appendFraction integral n.fraction
  (scale? (.ofNat significand) (n.exponent + dropped - taken)).map fun x =>
    if n.negative then x.neg else x

/-- The value of a numeral read as an integer of 64 bits, which is at least `-2 ^ 63`.  `-0` is no
integer. -/
def integer? (n : Numeral) : Option Int :=
  let (integral, dropped) := appendWhole 0 n.whole
  if !n.plain || dropped != 0 then none
  else if !n.negative then some integral
  else if 1 ≤ integral ∧ integral ≤ 9223372036854775808 then some (-integral)
  else none

end Numeral

end Patchbay.Json
