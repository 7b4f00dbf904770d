import Mathlib.Algebra.Order.Floor.Semifield
import Patchbay.Proofs.Number.Rounding

/-!
# Rounding at the ninth decimal place, twice

`roundToDecimals 9` scales a number by `10 ^ 9`, rounds it to an integer and scales it back, each
step in the format.  What comes out is the number nearest to some whole number of billionths, and
one might expect that rounding it again changes nothing.  That holds except in one window: from
`2 ^ 22` up to `2 ^ 52 / 10 ^ 9`, neighbours in the format are almost a billionth apart while the
scaled numbers are halves, so a scaled number with a fraction between a quarter and a half goes to
the half above it and from there away from zero.  These numbers *drift*.

## Shape of the proof

* `roundToDecimals_eq`: the result depends on the rounded scaled number only, through `billionths`.
* Below `2 ^ 22` the scaled number is less than a half away from the billionths that it came from
  (`billionths_again_of_lt`).
* In the window it is a multiple of a half, and it is decided which one
  (`billionths_again_of_window`).
* From `2 ^ 52` scaled on, scaled numbers are integers, and scaling back leads to the same number,
  because a number halfway to its neighbour cannot be a whole number of billionths
  (`billionths_again_of_ge`).
-/

namespace Patchbay.Binary64

/-! ## Operations as fractions -/

section Operations

variable (s t : Bool) {m n : ℕ} {e f : ℤ} (hc : Canonical m e) (hd : Canonical n f)

/-- A product of numbers is the rounded product of their values. -/
theorem exists_ofRatio_mul :
    ∃ num den, 0 < den ∧ finite s m e hc * finite t n f hd = ofRatio (s != t) num den ∧
      (num : ℚ) / den = m * 2 ^ e * (n * 2 ^ f) := by
  refine ⟨_, _, powerDen_pos two_pos (e + f), rfl, ?_⟩
  have hpower := powerNum_div_powerDen 2 (e + f)
  rw [Nat.cast_ofNat] at hpower
  rw [Nat.cast_mul, mul_div_assoc, hpower, zpow_add₀ two_ne_zero]
  push_cast
  ring

/-- A quotient of numbers is the rounded quotient of their values. -/
theorem exists_ofRatio_div (hn : n ≠ 0) :
    ∃ num den, 0 < den ∧ finite s m e hc / finite t n f hd = ofRatio (s != t) num den ∧
      (num : ℚ) / den = m * 2 ^ e / (n * 2 ^ f) := by
  refine ⟨m * powerNum 2 (e - f), n * powerDen 2 (e - f),
    Nat.mul_pos (Nat.pos_of_ne_zero hn) (powerDen_pos two_pos _), ?_, ?_⟩
  · show div _ _ = _
    rw [div, if_neg hn]
  · rw [mul_powerNum_div, zpow_sub₀ two_ne_zero]
    field_simp

/-- A finite number is its product with 1. -/
theorem ofNat_one_mul {x : Binary64} (hx : x.isFinite) : ofNat 1 * x = x := by
  obtain ⟨s, m, e, hc⟩ | _ | _ := x
  · have hcanonical : Canonical leadingBit (-52) := by decide
    have hone : ofNat 1 = finite false leadingBit (-52) (by decide) := by decide +kernel
    obtain ⟨num, den, hden, hmul, hratio⟩ := exists_ofRatio_mul false s hcanonical hc
    rw [hone, hmul, Bool.false_bne]
    refine ofRatio_of_eq s hden hc ?_
    rw [hratio]
    norm_num
  · exact absurd hx (by decide +revert)
  · exact absurd hx (by decide)

/-- The factor by which numbers are scaled. -/
def billion : Binary64 := ofNat (powerNum 10 (9 : ℕ))

/-- The scale of nine places is a number without rounding. -/
theorem billion_eq : billion = finite false 8388608000000000 (-23) (by decide) := by
  decide +kernel

/-- Scaling up rounds the value times a billion. -/
theorem exists_ofRatio_mul_billion :
    ∃ num den, 0 < den ∧ finite s m e hc * billion = ofRatio s num den ∧
      (num : ℚ) / den = m * 2 ^ e * 10 ^ 9 := by
  obtain ⟨num, den, hden, hmul, hratio⟩ := exists_ofRatio_mul s false hc
    (show Canonical 8388608000000000 (-23) by decide)
  refine ⟨num, den, hden, ?_, ?_⟩
  · rw [billion_eq, hmul, Bool.bne_false]
  · rw [hratio]
    norm_num

/-- Scaling down rounds the value by a billion. -/
theorem exists_ofRatio_div_billion :
    ∃ num den, 0 < den ∧ finite s m e hc / billion = ofRatio s num den ∧
      (num : ℚ) / den = m * 2 ^ e / 10 ^ 9 := by
  obtain ⟨num, den, hden, hdiv, hratio⟩ := exists_ofRatio_div s false hc
    (show Canonical 8388608000000000 (-23) by decide) (by norm_num)
  refine ⟨num, den, hden, ?_, ?_⟩
  · rw [billion_eq, hdiv, Bool.bne_false]
  · rw [hratio]
    norm_num

/-! ## Whole numbers -/

/-- The nearest integer to a finite number, a half going up. -/
def nearestInteger (m : ℕ) (e : ℤ) : ℕ := ⌊(m : ℚ) * 2 ^ e + 1 / 2⌋₊

/-- The nearest integer is the one at most half away, and the upper of two. -/
theorem nearestInteger_eq {k : ℕ} (hlow : (k : ℚ) - 1 / 2 ≤ n * 2 ^ f)
    (hhigh : (n : ℚ) * 2 ^ f < k + 1 / 2) : nearestInteger n f = k := by
  unfold nearestInteger
  rw [Nat.floor_eq_iff (by positivity)]
  constructor <;> linarith

/-- A number without fractional bits is its own nearest integer. -/
theorem nearestInteger_of_nonneg (n : ℕ) (hf : 0 ≤ f) : (nearestInteger n f : ℚ) = n * 2 ^ f := by
  obtain ⟨k, rfl⟩ := Int.eq_ofNat_of_zero_le hf
  have hwhole : (n : ℚ) * 2 ^ (k : ℤ) = (n * 2 ^ k : ℕ) := by push_cast; rfl
  rw [hwhole, Nat.cast_inj]
  apply nearestInteger_eq <;> rw [hwhole] <;> linarith

/-- Rounding to an integer is exact in the format. -/
theorem exists_roundToInteger :
    ∃ n f hd, roundToInteger (finite s m e hc) = finite s n f hd ∧
      (n : ℚ) * 2 ^ f = nearestInteger m e := by
  by_cases he : 0 ≤ e
  · refine ⟨m, e, hc, by rw [roundToInteger, if_pos he], ?_⟩
    obtain ⟨k, rfl⟩ := Int.eq_ofNat_of_zero_le he
    have hwhole : (m : ℚ) * 2 ^ (k : ℤ) = (m * 2 ^ k : ℕ) := by push_cast; rfl
    rw [nearestInteger, hwhole, Nat.cast_inj, eq_comm, Nat.floor_eq_iff (by positivity)]
    constructor <;> linarith
  · have hunit : (0 : ℚ) < powerDen 2 e := by exact_mod_cast powerDen_pos two_pos e
    have hpower : (2 : ℚ) ^ e = 1 / powerDen 2 e := by
      have h := powerNum_div_powerDen 2 e
      rw [Nat.cast_ofNat] at h
      rw [← h, powerNum, Int.toNat_of_nonpos (le_of_not_ge he)]
      norm_num
    have hfloor : nearestInteger m e = (2 * m + powerDen 2 e) / (2 * powerDen 2 e) := by
      rw [← Nat.floor_div_eq_div (K := ℚ), nearestInteger, hpower]
      congr 1
      push_cast
      field_simp
    have hround : roundToInteger (finite s m e hc) = ofRatio s (nearestInteger m e) 1 := by
      rw [roundToInteger, if_neg he, hfloor]
    have hsmall : nearestInteger m e ≤ 2 * leadingBit := by
      have hm : (m : ℚ) ≤ 2 * leadingBit := by exact_mod_cast hc.1.le
      have he' : (2 : ℚ) ^ e ≤ 1 := zpow_le_one_of_nonpos₀ one_le_two (le_of_not_ge he)
      refine Nat.lt_succ_iff.mp ((Nat.floor_lt (by positivity)).mpr ?_)
      have hvalue : (m : ℚ) * 2 ^ e ≤ 2 * leadingBit * 1 := by gcongr
      push_cast at hvalue ⊢
      linarith
    have hbound : ((nearestInteger m e : ℕ) : ℚ) / (1 : ℕ) < 2 ^ 1023 := by
      rw [Nat.cast_one, div_one]
      calc (nearestInteger m e : ℚ) ≤ (2 * leadingBit : ℕ) := Nat.cast_le.mpr hsmall
        _ = 2 ^ 53 := by norm_num
        _ < 2 ^ 1023 := pow_lt_pow_right₀ one_lt_two (by norm_num)
    obtain ⟨n, f, hd, hresult⟩ := exists_ofRatio_eq s one_pos hbound
    refine ⟨n, f, hd, hround.trans hresult, ?_⟩
    have hnearest := nearest_of_ofRatio one_pos hresult hsmall (show -1074 ≤ 0 by norm_num)
    rw [Nat.cast_one, div_one, zpow_zero, mul_one, sub_self, abs_zero] at hnearest
    exact (sub_eq_zero.mp (abs_eq_zero.mp (le_antisymm hnearest (abs_nonneg _)))).symm

/-- The rounded number is the one that stands for the nearest integer. -/
theorem roundToInteger_eq :
    roundToInteger (finite s m e hc) = ofRatio s (nearestInteger m e) 1 := by
  obtain ⟨n, f, hd, hround, hvalue⟩ := exists_roundToInteger s hc
  rw [hround, ofRatio_of_eq s one_pos hd (by rw [Nat.cast_one, div_one, hvalue])]

end Operations

/-! ## Whole numbers of billionths -/

/-- A whole number that is one of the format. -/
def Whole (count : ℕ) : Prop := ∃ n f, Canonical n f ∧ (n : ℚ) * 2 ^ f = count

/-- The number nearest to a whole number of billionths. -/
def billionths (negative : Bool) (count : ℕ) : Binary64 :=
  ofRatio negative count 1 / billion

section Billionths

variable {s : Bool} {count m n : ℕ} {e f : ℤ} {hc : Canonical m e} {hd : Canonical n f}

/-- The integer nearest to a number is a number itself. -/
theorem whole_nearestInteger (hc : Canonical m e) : Whole (nearestInteger m e) := by
  obtain ⟨n, f, hd, -, hvalue⟩ := exists_roundToInteger false hc
  exact ⟨n, f, hd, hvalue⟩

/-- A scaled number keeps its sign. -/
theorem exists_scaled (hfinite : (finite s m e hc * billion).isFinite) :
    ∃ n f hd, finite s m e hc * billion = finite s n f hd := by
  obtain ⟨t, n, f, hd, hscaled⟩ := exists_of_isFinite hfinite
  obtain ⟨num, den, hden, hmul, -⟩ := exists_ofRatio_mul_billion s hc
  obtain rfl := sign_of_ofRatio hden (hmul.symm.trans hscaled)
  exact ⟨n, f, hd, hscaled⟩

/-- What is rounded at the ninth place becomes a whole number of billionths. -/
theorem roundToDecimals_eq
    (hscaled : finite s m e hc * billion = finite s n f hd) :
    (finite s m e hc).roundToDecimals 9 = billionths s (nearestInteger n f) := by
  show (if (finite s m e hc * billion).isFinite then
    (finite s m e hc * billion).roundToInteger / billion else finite s m e hc) = _
  rw [hscaled]
  show (finite s n f hd).roundToInteger / billion = _
  rw [roundToInteger_eq, billionths]

/-- A number that cannot be scaled is left alone. -/
theorem roundToDecimals_of_not_isFinite {x : Binary64}
    (h : ¬ (x * billion).isFinite) : x.roundToDecimals 9 = x :=
  if_neg h

/-- A count of billionths is its rounded value. -/
theorem exists_ofRatio_billionths (s : Bool) (hwhole : Whole count) :
    ∃ num den, 0 < den ∧ billionths s count = ofRatio s num den ∧
      (num : ℚ) / den = count / 10 ^ 9 := by
  obtain ⟨n, f, hd, hvalue⟩ := hwhole
  have hcount : ofRatio s count 1 = finite s n f hd :=
    ofRatio_of_eq s one_pos hd (by rw [Nat.cast_one, div_one, hvalue])
  obtain ⟨num, den, hden, hdiv, hratio⟩ := exists_ofRatio_div_billion s hd
  exact ⟨num, den, hden, by rw [billionths, hcount, hdiv], by rw [hratio, hvalue]⟩

/-- A count of billionths is finite. -/
theorem exists_billionths_eq (s : Bool) (hwhole : Whole count) :
    ∃ m e hc, billionths s count = finite s m e hc := by
  obtain ⟨num, den, hden, hbillionths, hratio⟩ := exists_ofRatio_billionths s hwhole
  rw [hbillionths]
  refine exists_ofRatio_eq s hden ?_
  obtain ⟨n, f, ⟨hn, -, hf, -⟩, hvalue⟩ := hwhole
  have hn' : (n : ℚ) ≤ 2 ^ 53 := by exact_mod_cast hn.le
  have hpower : (2 : ℚ) ^ f ≤ 2 ^ 971 := by
    rw [← zpow_natCast]
    exact zpow_le_zpow_right₀ one_le_two hf
  rw [hratio, ← hvalue, div_lt_iff₀ (by positivity)]
  calc (n : ℚ) * 2 ^ f ≤ 2 ^ 53 * 2 ^ 971 := by gcongr
    _ = 2 ^ 1023 * 2 := by rw [← pow_add, ← pow_succ]
    _ < 2 ^ 1023 * 10 ^ 9 := by
      gcongr
      norm_num

/-- The count is within half a unit of the number, scaled. -/
theorem abs_count_sub_le (hwhole : Whole count) (hy : billionths s count = finite s m e hc) :
    |(count : ℚ) - m * 2 ^ e * 10 ^ 9| ≤ 2 ^ e / 2 * 10 ^ 9 := by
  obtain ⟨num, den, hden, hbillionths, hratio⟩ := exists_ofRatio_billionths s hwhole
  have hnear := abs_sub_le_of_ofRatio hden (hbillionths.symm.trans hy)
  rw [hratio] at hnear
  calc |(count : ℚ) - m * 2 ^ e * 10 ^ 9|
      = |(count : ℚ) / 10 ^ 9 - m * 2 ^ e| * 10 ^ 9 := (abs_div_sub_mul (by norm_num) _ _).symm
    _ ≤ 2 ^ e / 2 * 10 ^ 9 := by gcongr

end Billionths

/-! ## Exponents of canonical numbers -/

section Exponents

variable {m n : ℕ} {e f : ℤ}

/-- A number below a power of two has a small exponent. -/
theorem exponent_le_of_lt (hc : Canonical m e) {k : ℤ} (hk : -1021 ≤ k)
    (h : (m : ℚ) * 2 ^ e < 2 ^ k) : e ≤ k - 53 := by
  obtain ⟨-, -, -, hm | rfl⟩ := hc
  · have hm' : (2 : ℚ) ^ (52 : ℤ) ≤ m := by exact_mod_cast hm
    have hlt : (2 : ℚ) ^ (52 + e) < 2 ^ k := by
      rw [zpow_add₀ two_ne_zero]
      exact (mul_le_mul_of_nonneg_right hm' (by positivity)).trans_lt h
    have := (zpow_lt_zpow_iff_right₀ one_lt_two).mp hlt
    omega
  · omega

/-- A number from a power of two on has a large exponent. -/
theorem le_exponent_of_le (hc : Canonical m e) {k : ℤ} (h : (2 : ℚ) ^ k ≤ m * 2 ^ e) :
    k - 52 ≤ e := by
  have hm : (m : ℚ) < 2 ^ (53 : ℤ) := by exact_mod_cast hc.1
  have hlt : (2 : ℚ) ^ k < 2 ^ (53 + e) := by
    rw [zpow_add₀ two_ne_zero]
    exact h.trans_lt (mul_lt_mul_of_pos_right hm (by positivity))
  have := (zpow_lt_zpow_iff_right₀ one_lt_two).mp hlt
  omega

/-- A number that is whole when it is scaled has its leading bit. -/
theorem leadingBit_le_of_ge (hc : Canonical m e) (hge : 2 ^ 52 ≤ (m : ℚ) * 2 ^ e * 10 ^ 9) :
    leadingBit ≤ m := by
  obtain ⟨hm, -, -, hm' | rfl⟩ := hc
  · exact hm'
  · have hm' : (m : ℚ) ≤ 2 ^ 53 := by exact_mod_cast hm.le
    have htiny : (2 : ℚ) ^ (-1074 : ℤ) ≤ 2 ^ (-54 : ℤ) :=
      zpow_le_zpow_right₀ one_le_two (by norm_num)
    have hsmall : (m : ℚ) * 2 ^ (-1074 : ℤ) * 10 ^ 9 ≤ 2 ^ 53 * 2 ^ (-54 : ℤ) * 10 ^ 9 := by gcongr
    exact absurd (hge.trans hsmall) (not_le.mpr (by norm_num))

/-- An odd mantissa cannot be made smaller. -/
theorem odd_le_of_mul_eq {k : ℕ} (hodd : k % 2 = 1) (h : (n : ℚ) * 2 ^ f = k * 2 ^ e) : k ≤ n := by
  rcases le_or_gt f e with hle | hgt
  · have hn : (n : ℚ) = (k * 2 ^ (e - f).toNat : ℕ) := by
      push_cast
      rw [← zpow_natCast, Int.toNat_of_nonneg (by omega), zpow_sub₀ two_ne_zero, ← mul_div_assoc,
        ← h, mul_div_cancel_right₀ _ (by positivity)]
    rw [Nat.cast_inj.mp hn]
    exact Nat.le_mul_of_pos_right _ (by positivity)
  · have hk : (k : ℚ) = (n * 2 ^ ((f - e).toNat - 1) * 2 : ℕ) := by
      rw [mul_assoc, ← pow_succ, Nat.sub_add_cancel (by omega)]
      push_cast
      rw [← zpow_natCast, Int.toNat_of_nonneg (by omega), zpow_sub₀ two_ne_zero, ← mul_div_assoc,
        h, mul_div_cancel_right₀ _ (by positivity)]
    have := Nat.cast_inj.mp hk
    omega

end Exponents

/-! ## Whole billionths rounded again -/

section Again

variable {s : Bool} {count m n : ℕ} {e f : ℤ} {hc : Canonical m e} {hd : Canonical n f}

/-- Below `2 ^ 52` the scaled number is exact up to a quarter. -/
theorem abs_scaled_sub_le (hscaled : finite s m e hc * billion = finite s n f hd)
    (hlt : (m : ℚ) * 2 ^ e * 10 ^ 9 < 2 ^ 52) : |(m : ℚ) * 2 ^ e * 10 ^ 9 - n * 2 ^ f| ≤ 1 / 4 := by
  obtain ⟨num, den, hden, hmul, hratio⟩ := exists_ofRatio_mul_billion s hc
  have hlt' : (num : ℚ) / den < 2 ^ (52 : ℤ) := by
    rw [hratio]
    exact_mod_cast hlt
  have hnear := abs_sub_le_of_lt hden (hmul.symm.trans hscaled) (by norm_num) hlt'
  rw [hratio] at hnear
  norm_num at hnear ⊢
  exact hnear

/-- Below `2 ^ 22` the count is found again. -/
theorem billionths_again_of_lt (hwhole : Whole count) (hy : billionths s count = finite s m e hc)
    (hscaled : finite s m e hc * billion = finite s n f hd) (hlt : (m : ℚ) * 2 ^ e < 2 ^ 22) :
    nearestInteger n f = count := by
  have hexponent : e ≤ -31 := exponent_le_of_lt hc (k := 22) (by norm_num) (by exact_mod_cast hlt)
  have hunit : (2 : ℚ) ^ e ≤ 2 ^ (-31 : ℤ) := zpow_le_zpow_right₀ one_le_two hexponent
  have hcount := abs_le.mp (abs_count_sub_le hwhole hy)
  have hnear := abs_le.mp (abs_scaled_sub_le hscaled (by linarith))
  -- less than a quarter from the count to the number, and a quarter on to its scaled value
  norm_num at hunit
  apply nearestInteger_eq <;> linarith [hcount.1, hcount.2, hnear.1, hnear.2]

/-- The numbers whose billionths, rounded to halves and then to integers, are one too many: those of
exponent `-30`, less than `2 ^ 52` when scaled, whose scaled fraction lies strictly between a
quarter and a half.  A scaled number of that exponent is `m * 5 ^ 9 / 2 ^ 21`. -/
def Drifts : Binary64 → Prop
  | .finite _ m e _ =>
    e = -30 ∧ m * 5 ^ 9 < 2 ^ 73 ∧ 2 ^ 19 < m * 5 ^ 9 % 2 ^ 21 ∧ m * 5 ^ 9 % 2 ^ 21 < 2 ^ 20
  | _ => False

instance (x : Binary64) : Decidable x.Drifts :=
  match x with
  | .finite _ m e _ => inferInstanceAs (Decidable (e = -30 ∧ m * 5 ^ 9 < 2 ^ 73 ∧
      2 ^ 19 < m * 5 ^ 9 % 2 ^ 21 ∧ m * 5 ^ 9 % 2 ^ 21 < 2 ^ 20))
  | .infinite _ => inferInstanceAs (Decidable False)
  | .nan => inferInstanceAs (Decidable False)

/-- Between `2 ^ 22` and the window's end every number has the exponent `-30`. -/
theorem exponent_eq_of_window (hc : Canonical m e) (hlow : (2 : ℚ) ^ 22 ≤ m * 2 ^ e)
    (hhigh : (m : ℚ) * 2 ^ e * 10 ^ 9 < 2 ^ 52) : e = -30 := by
  have hge : (22 : ℤ) - 52 ≤ e := le_exponent_of_le hc (by exact_mod_cast hlow)
  have hle : e ≤ (23 : ℤ) - 53 := exponent_le_of_lt hc (by norm_num) (by
    norm_num at hhigh ⊢
    linarith)
  omega

/-- In the window of one exponent, scaling is by a power of five. -/
theorem scaled_of_window (m : ℕ) :
    (m : ℚ) * 2 ^ (-30 : ℤ) * 10 ^ 9 = (m * 5 ^ 9 : ℕ) / 2 ^ 21 := by
  push_cast
  norm_num
  ring

/-- In the window the scaled number is a number of halves, the nearest one and in a tie an even
one. -/
theorem exists_halves_of_window {hc : Canonical m (-30)}
    (hscaled : finite s m (-30) hc * billion = finite s n f hd)
    (hlow : 2 ^ 22 ≤ (m : ℚ) * 2 ^ (-30 : ℤ))
    (hhigh : (m : ℚ) * 2 ^ (-30 : ℤ) * 10 ^ 9 < 2 ^ 52) :
    ∃ halves : ℕ, (n : ℚ) * 2 ^ f = halves / 2 ∧
      2 ^ 20 * halves ≤ m * 5 ^ 9 + 2 ^ 19 ∧ m * 5 ^ 9 ≤ 2 ^ 20 * halves + 2 ^ 19 ∧
      (2 ^ 20 * halves = m * 5 ^ 9 + 2 ^ 19 → halves % 2 = 0) := by
  obtain ⟨num, den, hden, hmul, hratio⟩ := exists_ofRatio_mul_billion s hc
  have hnum : 0 < num := num_pos_of_div_pos den (by rw [hratio]; linarith)
  have hexponent : unitExponent num den = -1 := by
    apply unitExponent_eq hnum hden (by norm_num) <;> rw [hratio] <;> norm_num at hlow hhigh ⊢ <;>
      linarith
  have hpoint := (point_of_ofRatio hnum hden (hmul.symm.trans hscaled)).2.2
  have hround := abs_sub_unitMantissa_le num hden
  have heven := even_unitMantissa num hden
  -- twice the scaled number is the mantissa times `5 ^ 9 / 2 ^ 20`
  have htwice : (num : ℚ) / den / 2 ^ (-1 : ℤ) = (m * 5 ^ 9 : ℕ) / 2 ^ 20 := by
    rw [hratio, scaled_of_window]
    norm_num
    ring
  rw [hexponent] at hpoint
  rw [hexponent, htwice] at hround heven
  generalize m * 5 ^ 9 = scaled at hround heven ⊢
  have hbelow := (abs_le.mp hround).1
  have habove := (abs_le.mp hround).2
  refine ⟨unitMantissa num den, ?_, ?_, ?_, fun h => heven ?_⟩
  · rw [hpoint, zpow_neg_one, div_eq_mul_inv]
  · have h : (2 : ℚ) ^ 20 * unitMantissa num den ≤ scaled + 2 ^ 19 := by linarith
    exact_mod_cast h
  · have h : (scaled : ℚ) ≤ 2 ^ 20 * unitMantissa num den + 2 ^ 19 := by linarith
    exact_mod_cast h
  · have h' : (2 : ℚ) ^ 20 * unitMantissa num den = scaled + 2 ^ 19 := by exact_mod_cast h
    have hhalf : (scaled : ℚ) / 2 ^ 20 - unitMantissa num den = -(1 / 2) := by linarith
    rw [hhalf]
    norm_num

/-- In the window the count is found again, or the next one by a number that drifts. -/
theorem billionths_again_of_window {hc : Canonical m (-30)} (hwhole : Whole count)
    (hy : billionths s count = finite s m (-30) hc)
    (hscaled : finite s m (-30) hc * billion = finite s n f hd)
    (hlow : 2 ^ 22 ≤ (m : ℚ) * 2 ^ (-30 : ℤ))
    (hhigh : (m : ℚ) * 2 ^ (-30 : ℤ) * 10 ^ 9 < 2 ^ 52) :
    nearestInteger n f = if (finite s m (-30) hc).Drifts then count + 1 else count := by
  obtain ⟨halves, hhalves, hbelow, habove, heven⟩ := exists_halves_of_window hscaled hlow hhigh
  have hcount := abs_le.mp (abs_count_sub_le hwhole hy)
  rw [scaled_of_window] at hcount hhigh
  have hlarge : m * 5 ^ 9 < 2 ^ 73 := by
    rw [div_lt_iff₀ (by norm_num), ← pow_add] at hhigh
    exact_mod_cast hhigh
  have hdrifts : (finite s m (-30) hc).Drifts ↔
      2 ^ 19 < m * 5 ^ 9 % 2 ^ 21 ∧ m * 5 ^ 9 % 2 ^ 21 < 2 ^ 20 :=
    ⟨fun h => h.2.2, fun h => ⟨rfl, hlarge, h⟩⟩
  rw [if_congr hdrifts rfl rfl]
  clear hdrifts
  generalize m * 5 ^ 9 = scaled at hbelow habove heven hcount ⊢
  -- the count is at most `5 ^ 9 / 2 ^ 22` away, which is less than a half
  have hcountLow : 2 ^ 22 * count ≤ 2 * scaled + 5 ^ 9 := by
    have h : (2 : ℚ) ^ 22 * count ≤ 2 * scaled + 5 ^ 9 := by
      have hle := hcount.2
      norm_num at hle ⊢
      linarith
    exact_mod_cast h
  have hcountHigh : 2 * scaled ≤ 2 ^ 22 * count + 5 ^ 9 := by
    have h : 2 * (scaled : ℚ) ≤ 2 ^ 22 * count + 5 ^ 9 := by
      have hle := hcount.1
      norm_num at hle ⊢
      linarith
    exact_mod_cast h
  -- a half goes up, so the nearest integer is half the number of halves, rounded up
  have hnearest : nearestInteger n f = (halves + 1) / 2 := by
    rw [nearestInteger, hhalves, ← Nat.floor_div_eq_div (K := ℚ)]
    congr 1
    push_cast
    ring
  rw [hnearest]
  split <;> omega

/-- A number halfway between neighbours of 53 bits is not a whole number of billionths: its
mantissa is odd and has the factor `5 ^ 9` besides. -/
theorem abs_count_sub_ne (hwhole : Whole count) (hm : leadingBit ≤ m) :
    |(count : ℚ) - m * 2 ^ e * 10 ^ 9| ≠ 2 ^ e / 2 * 10 ^ 9 := by
  obtain ⟨n, f, ⟨hn, -⟩, hvalue⟩ := hwhole
  intro h
  have hpower : (2 : ℚ) ^ (f + 1) = 2 ^ f * 2 := zpow_add_one₀ two_ne_zero f
  have hscale : (2 : ℚ) ^ (e + 9) = 2 ^ e * 2 ^ 9 := by
    rw [zpow_add₀ two_ne_zero]
    norm_num
  have hlarge (k : ℕ) (hk : 2 * m ≤ k + 1) (hodd : k % 2 = 1) :
      (n : ℚ) * 2 ^ (f + 1) ≠ (1953125 * k : ℕ) * 2 ^ (e + 9) := by
    intro h
    have hle := odd_le_of_mul_eq (show 1953125 * k % 2 = 1 by omega) h
    omega
  have hpred : ((2 * m - 1 : ℕ) : ℚ) = 2 * m - 1 := by
    rw [Nat.cast_sub (by omega)]
    push_cast
    ring
  rcases (abs_eq (by positivity)).mp h with h | h
  · apply hlarge (2 * m + 1) (by omega) (by omega)
    rw [hpower, hscale]
    push_cast
    linarith
  · apply hlarge (2 * m - 1) (by omega) (by omega)
    rw [hpower, hscale, Nat.cast_mul, hpred]
    push_cast
    linarith

/-- Where scaled numbers are integers, scaling back leads to the same number. -/
theorem billionths_again_of_ge (hwhole : Whole count) (hy : billionths s count = finite s m e hc)
    (hscaled : finite s m e hc * billion = finite s n f hd)
    (hge : 2 ^ 52 ≤ (m : ℚ) * 2 ^ e * 10 ^ 9) :
    billionths s (nearestInteger n f) = finite s m e hc := by
  obtain ⟨num, den, hden, hmul, hratio⟩ := exists_ofRatio_mul_billion s hc
  have hresult := hmul.symm.trans hscaled
  have hnum : 0 < num := num_pos_of_div_pos den (hratio ▸ lt_of_lt_of_le (by norm_num) hge)
  have hm : leadingBit ≤ m := leadingBit_le_of_ge hc hge
  have hf : 0 ≤ f := by
    have hge' : (2 : ℚ) ^ (52 : ℤ) ≤ num / den := by
      rw [hratio]
      exact_mod_cast hge
    exact (le_unitExponent_of_le hnum hden hge').trans (point_of_ofRatio hnum hden hresult).2.1
  obtain ⟨num', den', hden', hbillionths, hratio'⟩ :=
    exists_ofRatio_billionths s (whole_nearestInteger hd)
  rw [nearestInteger_of_nonneg n hf] at hratio'
  rw [hbillionths]
  -- below a power of two the numbers are closer together, so it is taken apart
  rcases hm.eq_or_lt with rfl | hm
  · -- a power of two is scaled without a rounding
    have hexact := nearest_of_ofRatio hden hresult
      (show 4194304000000000 ≤ 2 * leadingBit by norm_num)
      (show -1074 ≤ e + 30 by have := hc.2.1; omega)
    have hproduct : (leadingBit : ℚ) * 2 ^ e * 10 ^ 9 = (4194304000000000 : ℕ) * 2 ^ (e + 30) := by
      rw [zpow_add₀ two_ne_zero]
      norm_num
      ring
    rw [hratio, ← hproduct, sub_self, abs_zero] at hexact
    have hvalue := sub_eq_zero.mp (abs_eq_zero.mp (le_antisymm hexact (abs_nonneg _)))
    apply ofRatio_of_eq s hden' hc
    rw [hratio', ← hvalue, mul_div_cancel_right₀ _ (by norm_num)]
  · -- the scaled number is no farther away than the count, which is not halfway
    have hnearest : |(n : ℚ) * 2 ^ f - m * 2 ^ e * 10 ^ 9| ≤
        |(count : ℚ) - m * 2 ^ e * 10 ^ 9| := by
      obtain ⟨n', f', ⟨hn', hf', -⟩, hvalue⟩ := hwhole
      have h := nearest_of_ofRatio hden hresult hn'.le hf'
      rwa [hratio, hvalue, abs_sub_comm, abs_sub_comm _ (count : ℚ)] at h
    have hstrict := hnearest.trans_lt ((abs_count_sub_le hwhole hy).lt_of_ne
      (abs_count_sub_ne hwhole hm.le))
    have hnear : |(num' : ℚ) / den' - m * 2 ^ e| < 2 ^ e / 2 := by
      rw [hratio', abs_lt]
      rw [abs_lt] at hstrict
      constructor <;> linarith [hstrict.1, hstrict.2]
    refine ofRatio_eq_finite s hden' hc (.inr ?_) hnear
    have hm' : (leadingBit : ℚ) + 1 ≤ m := by exact_mod_cast hm
    have hnext : ((leadingBit : ℚ) + 1) * 2 ^ e ≤ m * 2 ^ e := by gcongr
    have hunit : (0 : ℚ) < 2 ^ e := by positivity
    have hbelow := (abs_lt.mp hnear).1
    calc (leadingBit : ℚ) * 2 ^ e ≤ m * 2 ^ e - 2 ^ e := by linarith
      _ ≤ m * 2 ^ e - 2 ^ e / 2 := by linarith
      _ ≤ num' / den' := by linarith

/-- Numbers that drift can be scaled. -/
theorem Drifts.isFinite_mul_billion (h : (finite s m e hc).Drifts) :
    (finite s m e hc * billion).isFinite := by
  obtain ⟨rfl, hlarge, -⟩ := h
  obtain ⟨num, den, hden, hmul, hratio⟩ := exists_ofRatio_mul_billion s hc
  rw [hmul]
  apply isFinite_ofRatio s hden
  have hlarge' : ((m * 5 ^ 9 : ℕ) : ℚ) < 2 ^ 73 := by exact_mod_cast hlarge
  rw [hratio, scaled_of_window]
  calc ((m * 5 ^ 9 : ℕ) : ℚ) / 2 ^ 21 ≤ (m * 5 ^ 9 : ℕ) := div_le_self (by positivity) (by norm_num)
    _ < 2 ^ 73 := hlarge'
    _ < 2 ^ 1023 := pow_lt_pow_right₀ one_lt_two (by norm_num)

/-- Outside of the window nothing drifts. -/
theorem not_drifts_of_ge (hge : 2 ^ 52 ≤ (m : ℚ) * 2 ^ e * 10 ^ 9) :
    ¬ (finite s m e hc).Drifts := by
  rintro ⟨rfl, hlarge, -⟩
  rw [scaled_of_window, le_div_iff₀ (by norm_num), ← pow_add] at hge
  exact absurd hlarge (not_lt.mpr (by exact_mod_cast hge))

/-- Below `2 ^ 22` a number is far enough from the next one to be rounded to itself again. -/
theorem not_drifts_of_lt (hlt : (m : ℚ) * 2 ^ e < 2 ^ 22) : ¬ (finite s m e hc).Drifts := by
  rintro ⟨rfl, -⟩
  have := exponent_le_of_lt hc (k := 22) (by norm_num) (by exact_mod_cast hlt)
  omega

/-- Whole billionths are found again exactly where they do not drift. -/
theorem roundToDecimals_again (hwhole : Whole count)
    (hy : billionths s count = finite s m e hc) :
    (finite s m e hc).roundToDecimals 9 = finite s m e hc ↔ ¬ (finite s m e hc).Drifts := by
  by_cases hfinite : (finite s m e hc * billion).isFinite
  · obtain ⟨n, f, hd, hscaled⟩ := exists_scaled hfinite
    rw [roundToDecimals_eq hscaled]
    rcases lt_or_ge ((m : ℚ) * 2 ^ e) (2 ^ 22) with hlow | hlow
    · rw [billionths_again_of_lt hwhole hy hscaled hlow, hy]
      exact iff_of_true rfl (not_drifts_of_lt hlow)
    · rcases lt_or_ge ((m : ℚ) * 2 ^ e * 10 ^ 9) (2 ^ 52) with hhigh | hhigh
      · obtain rfl := exponent_eq_of_window hc hlow hhigh
        have hagain := billionths_again_of_window hwhole hy hscaled hlow hhigh
        by_cases hdrifts : (finite s m (-30) hc).Drifts
        · -- the next count is too far away from the number
          rw [if_pos hdrifts] at hagain
          refine iff_of_false (fun h => ?_) (not_not.mpr hdrifts)
          have hnext := abs_le.mp (abs_count_sub_le (whole_nearestInteger hd) h)
          have hcount := abs_le.mp (abs_count_sub_le hwhole hy)
          rw [hagain] at hnext
          push_cast at hnext
          norm_num at hnext hcount
          linarith [hnext.2, hcount.1]
        · rw [hagain, if_neg hdrifts, hy]
          exact iff_of_true rfl hdrifts
      · exact iff_of_true (billionths_again_of_ge hwhole hy hscaled hhigh) (not_drifts_of_ge hhigh)
  · rw [roundToDecimals_of_not_isFinite hfinite]
    exact iff_of_true rfl fun h => hfinite h.isFinite_mul_billion

/-- **Rounding at the ninth place is idempotent but for drift.**  A finite number stays finite when
it is rounded, and rounding it again changes it exactly if it drifts. -/
theorem roundToDecimals_roundToDecimals {x : Binary64} (hx : x.isFinite) :
    (x.roundToDecimals 9).isFinite ∧
      ((x.roundToDecimals 9).roundToDecimals 9 = x.roundToDecimals 9 ↔
        ¬ (x.roundToDecimals 9).Drifts) := by
  obtain ⟨s, m, e, hc, rfl⟩ := exists_of_isFinite hx
  by_cases hfinite : (finite s m e hc * billion).isFinite
  · obtain ⟨n, f, hd, hscaled⟩ := exists_scaled hfinite
    have hwhole := whole_nearestInteger hd
    obtain ⟨m', e', hc', hy⟩ := exists_billionths_eq s hwhole
    rw [roundToDecimals_eq hscaled, hy]
    exact ⟨rfl, roundToDecimals_again hwhole hy⟩
  · rw [roundToDecimals_of_not_isFinite hfinite, roundToDecimals_of_not_isFinite hfinite]
    exact ⟨rfl, iff_of_true rfl fun h => hfinite h.isFinite_mul_billion⟩

/-- Rounding makes no number finite or infinite. -/
theorem isFinite_roundToDecimals (x : Binary64) :
    (x.roundToDecimals 9).isFinite = x.isFinite := by
  cases hx : x.isFinite with
  | true => exact (roundToDecimals_roundToDecimals hx).1
  | false =>
    have hscaled : ¬ (x * billion).isFinite := by
      rw [billion_eq]
      obtain _ | _ | _ := x
      · exact absurd hx (by simp [isFinite])
      · show ¬ (mul _ _).isFinite
        simp [mul, isFinite]
      · exact Bool.false_ne_true
    rw [roundToDecimals_of_not_isFinite hscaled, hx]

end Again

end Patchbay.Binary64
