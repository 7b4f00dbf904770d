/-!
# Binary floating-point numbers of 64 bits

Every quantity of a patch is a number of the interchange format *binary64*.  A finite one is written
`± mantissa · 2 ^ exponent` with at most 53 bits of mantissa; the type keeps that form canonical, so
two numbers are equal exactly when they are the same datum (`0` and `-0` are two of them).

Arithmetic is carried out on exact fractions and rounded once, to the nearest number of the format
and to an even mantissa in a tie.  Nothing here depends on the floating-point unit of the machine.

## Contents

* `Binary64`, `Binary64.Canonical`: the data.
* `Binary64.ofRatio`: the one rounding, from a fraction.
* `Mul`, `Div`, `Sub`, `Binary64.magnitude`, `Binary64.atMost`: arithmetic and comparison.
* `Binary64.roundToInteger`, `Binary64.roundToDecimals`: rounding with halves away from zero.
-/

namespace Patchbay

/-- The least mantissa of 53 bits, `2 ^ 52`. -/
abbrev Binary64.leadingBit : Nat := 4503599627370496

/-- The mantissa and exponent of a finite number in canonical form: 53 bits at most, an exponent in
range, and all of the 53 bits unless the exponent is the least one. -/
abbrev Binary64.Canonical (mantissa : Nat) (exponent : Int) : Prop :=
  mantissa < 2 * leadingBit ∧ -1074 ≤ exponent ∧ exponent ≤ 971
    ∧ (leadingBit ≤ mantissa ∨ exponent = -1074)

/-- A datum of the format; all not-a-numbers are one. -/
inductive Binary64 where
  | finite (negative : Bool) (mantissa : Nat) (exponent : Int)
      (canonical : Binary64.Canonical mantissa exponent)
  | infinite (negative : Bool)
  | nan
  deriving DecidableEq, Repr

namespace Binary64

/-- Zero with the given sign. -/
def zero (negative : Bool) : Binary64 := .finite negative 0 (-1074) (by decide)

instance : Inhabited Binary64 := ⟨zero false⟩

/-- Neither an infinity nor a not-a-number. -/
def isFinite : Binary64 → Bool
  | .finite .. => true
  | _ => false

/-- Zero of either sign. -/
def isZero : Binary64 → Bool
  | .finite _ mantissa _ _ => mantissa == 0
  | _ => false

/-! ## Rounding -/

/-- The numerator of `base ^ exponent`. -/
def powerNum (base : Nat) (exponent : Int) : Nat := Nat.pow base exponent.toNat

/-- The denominator of `base ^ exponent`. -/
def powerDen (base : Nat) (exponent : Int) : Nat := Nat.pow base (-exponent).toNat

/-- The quotient rounded to the nearest integer, a half to the even neighbour. -/
def roundHalfEven (num den : Nat) : Nat :=
  let below := num / den
  let rest := num % den
  if 2 * rest < den then below
  else if den < 2 * rest then below + 1
  else if below % 2 = 0 then below
  else below + 1

/-- The greatest `k` with `2 ^ k ≤ num / den`, for a positive fraction. -/
def floorLog2 (num den : Nat) : Int :=
  let guess : Int := (Nat.log2 num : Int) - (Nat.log2 den : Int)
  if den * powerNum 2 guess ≤ num * powerDen 2 guess then guess else guess - 1

/-- The number with a canonical mantissa and exponent; a magnitude beyond the format is infinite. -/
def pack (negative : Bool) (mantissa : Nat) (exponent : Int) : Binary64 :=
  if h : Canonical mantissa exponent then .finite negative mantissa exponent h
  else .infinite negative

/-- The number nearest to `± num / den`, a tie going to the even mantissa. -/
def ofRatio (negative : Bool) (num den : Nat) : Binary64 :=
  if num = 0 then zero negative
  else
    let exponent := max (-1074) (floorLog2 num den - 52)
    let mantissa := roundHalfEven (num * powerDen 2 exponent) (den * powerNum 2 exponent)
    if mantissa < 2 * leadingBit then pack negative mantissa exponent
    else pack negative leadingBit (exponent + 1)

/-- The number nearest to `± mantissa · 2 ^ exponent`. -/
def ofScaled (negative : Bool) (mantissa : Nat) (exponent : Int) : Binary64 :=
  ofRatio negative (mantissa * powerNum 2 exponent) (powerDen 2 exponent)

/-- The number nearest to a natural number. -/
def ofNat (n : Nat) : Binary64 := ofRatio false n 1

/-- The number nearest to an integer. -/
def ofInt (n : Int) : Binary64 := ofRatio (n < 0) n.natAbs 1

/-! ## Arithmetic -/

/-- The same number with the other sign. -/
def neg : Binary64 → Binary64
  | .finite negative mantissa exponent h => .finite (!negative) mantissa exponent h
  | .infinite negative => .infinite (!negative)
  | .nan => .nan

/-- The same number without its sign. -/
def magnitude : Binary64 → Binary64
  | .finite _ mantissa exponent h => .finite false mantissa exponent h
  | .infinite _ => .infinite false
  | .nan => .nan

/-- The product, rounded once. -/
def mul : Binary64 → Binary64 → Binary64
  | .finite s m e _, .finite t n f _ => ofScaled (s != t) (m * n) (e + f)
  | .finite s m _ _, .infinite t => if m = 0 then .nan else .infinite (s != t)
  | .infinite s, .finite t n _ _ => if n = 0 then .nan else .infinite (s != t)
  | .infinite s, .infinite t => .infinite (s != t)
  | .nan, _ => .nan
  | _, .nan => .nan

/-- The quotient, rounded once. -/
def div : Binary64 → Binary64 → Binary64
  | .finite s m e _, .finite t n f _ =>
    if n = 0 then if m = 0 then .nan else .infinite (s != t)
    else ofRatio (s != t) (m * powerNum 2 (e - f)) (n * powerDen 2 (e - f))
  | .finite s _ _ _, .infinite t => zero (s != t)
  | .infinite s, .finite t _ _ _ => .infinite (s != t)
  | .infinite _, .infinite _ => .nan
  | .nan, _ => .nan
  | _, .nan => .nan

/-- The integer `k` with `± mantissa · 2 ^ exponent = k · 2 ^ unit`, for a unit not above the
exponent. -/
def inUnits (negative : Bool) (mantissa : Nat) (exponent unit : Int) : Int :=
  let scaled : Int := (mantissa * powerNum 2 (exponent - unit) : Nat)
  if negative then -scaled else scaled

/-- The difference, rounded once; equal numbers differ by `0`, and only `-0 - 0` is `-0`. -/
def sub : Binary64 → Binary64 → Binary64
  | .finite s m e _, .finite t n f _ =>
    let unit := min e f
    let difference := inUnits s m e unit - inUnits t n f unit
    if difference = 0 then zero (s && !t)
    else ofScaled (difference < 0) difference.natAbs unit
  | .finite .., .infinite t => .infinite (!t)
  | .infinite s, .finite .. => .infinite s
  | .infinite s, .infinite t => if s = t then .nan else .infinite s
  | .nan, _ => .nan
  | _, .nan => .nan

instance : Mul Binary64 := ⟨mul⟩
instance : Div Binary64 := ⟨div⟩
instance : Sub Binary64 := ⟨sub⟩

/-- Numerical `≤`; `0` and `-0` are equal, and nothing compares with a not-a-number. -/
def atMost : Binary64 → Binary64 → Bool
  | .finite s m e _, .finite t n f _ =>
    let unit := min e f
    decide (inUnits s m e unit ≤ inUnits t n f unit)
  | .finite .., .infinite t => !t
  | .infinite s, .finite .. => s
  | .infinite s, .infinite t => s || !t
  | .nan, _ => false
  | _, .nan => false

/-! ## Rounding in decimal places -/

/-- The nearest integer, a half going away from zero; the sign stays, so `-0.25` becomes `-0`. -/
def roundToInteger : Binary64 → Binary64
  | .finite negative mantissa exponent h =>
    if 0 ≤ exponent then .finite negative mantissa exponent h
    else
      let unit := powerDen 2 exponent
      ofRatio negative ((2 * mantissa + unit) / (2 * unit)) 1
  | x => x

/-- Rounds at a decimal place: the number is scaled, rounded to an integer and scaled back, each
step in the format.  A number too large to be scaled has no such places and is left alone. -/
def roundToDecimals (places : Nat) (x : Binary64) : Binary64 :=
  let scale := ofNat (powerNum 10 places)
  let scaled := x * scale
  if scaled.isFinite then scaled.roundToInteger / scale else x

/-- A number is at a distance of no more than the tolerance from another. -/
def within (x tolerance y : Binary64) : Bool := (x - y).magnitude.atMost tolerance

end Binary64

end Patchbay
