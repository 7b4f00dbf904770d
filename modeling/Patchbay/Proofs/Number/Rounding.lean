import Mathlib.Algebra.Order.Field.Power
import Mathlib.Data.Rat.Floor
import Mathlib.Tactic.FieldSimp
import Mathlib.Tactic.GCongr
import Mathlib.Tactic.Linarith
import Mathlib.Tactic.Positivity
import Mathlib.Tactic.Ring
import Patchbay.Number.Binary64

/-!
# The one rounding

All arithmetic goes through `Binary64.ofRatio`, and the facts about it here are the only ones that
proofs about numbers use.  They are stated over the rationals: a fraction is `num / den`, and a
finite number stands for `m * 2 ^ e` up to its sign.

## Shape of the proof

* Powers, and the two integer functions: `floorLog2` finds the binade of a fraction, and
  `roundHalfEven` the nearest integer.
* `unitExponent` and `unitMantissa` are the exponent of the grid on which a fraction is rounded and
  the point of the grid that is taken.  `ofRatio_eq_pack` says that nothing else enters a result.
* What a finite result says of the fraction: it is at most half a unit away
  (`abs_sub_le_of_ofRatio`), and nothing else in the format is nearer (`nearest_of_ofRatio`).
* Which result a fraction has: `isFinite_ofRatio` and `ofRatio_eq_finite`.
-/

namespace Patchbay.Binary64

/-! ## Powers -/

theorem powerNum_pos {base : ℕ} (hbase : 0 < base) (e : ℤ) : 0 < powerNum base e :=
  Nat.pow_pos hbase

theorem powerDen_pos {base : ℕ} (hbase : 0 < base) (e : ℤ) : 0 < powerDen base e :=
  Nat.pow_pos hbase

/-- The numerator and the denominator of a power are those of it. -/
theorem powerNum_div_powerDen (base : ℕ) (e : ℤ) :
    (powerNum base e : ℚ) / powerDen base e = (base : ℚ) ^ e := by
  unfold powerNum powerDen
  rw [Nat.pow_eq, Nat.pow_eq, Nat.cast_pow, Nat.cast_pow]
  rcases Int.le_total 0 e with he | he
  · rw [Int.toNat_of_nonpos (Int.neg_nonpos_of_nonneg he), pow_zero, div_one, ← zpow_natCast,
      Int.toNat_of_nonneg he]
  · rw [Int.toNat_of_nonpos he, pow_zero, one_div, ← zpow_natCast,
      Int.toNat_of_nonneg (Int.neg_nonneg_of_nonpos he), zpow_neg, inv_inv]

/-- A fraction is multiplied by a power of two through its parts. -/
theorem mul_powerNum_div (num den : ℕ) (e : ℤ) :
    ((num * powerNum 2 e : ℕ) : ℚ) / ((den * powerDen 2 e : ℕ) : ℚ) = num / den * 2 ^ e := by
  have hpower := powerNum_div_powerDen 2 e
  rw [Nat.cast_ofNat] at hpower
  rw [Nat.cast_mul, Nat.cast_mul, mul_div_mul_comm, hpower]

/-- A fraction is divided by a power of two through its parts. -/
theorem mul_powerDen_div (num den : ℕ) (e : ℤ) :
    ((num * powerDen 2 e : ℕ) : ℚ) / ((den * powerNum 2 e : ℕ) : ℚ) = num / den / 2 ^ e := by
  have hpower := powerNum_div_powerDen 2 e
  rw [Nat.cast_ofNat] at hpower
  rw [Nat.cast_mul, Nat.cast_mul, mul_div_mul_comm, ← inv_div (powerNum 2 e : ℚ), hpower,
    ← div_eq_mul_inv]

/-- A distance on a grid of unit `c` is a distance in units. -/
theorem abs_div_sub_mul {c : ℚ} (hc : 0 < c) (x y : ℚ) : |x / c - y| * c = |x - y * c| := by
  calc |x / c - y| * c = |x / c - y| * |c| := by rw [abs_of_pos hc]
    _ = |(x / c - y) * c| := (abs_mul _ _).symm
    _ = |x - y * c| := by rw [sub_mul, div_mul_cancel₀ _ hc.ne']

/-- A positive fraction has a positive numerator. -/
theorem num_pos_of_div_pos {num : ℕ} (den : ℕ) (h : (0 : ℚ) < num / den) : 0 < num := by
  rcases Nat.eq_zero_or_pos num with rfl | hnum
  · rw [Nat.cast_zero, zero_div] at h
    exact absurd h (lt_irrefl _)
  · exact hnum

/-! ## The nearest integer -/

section Integer

variable {num den : ℕ}

/-- A quotient is the quotient of the integers and a fraction, and `roundHalfEven` looks at which
side of a half the fraction lies. -/
private theorem exists_fraction (num : ℕ) (hden : 0 < den) :
    ∃ fraction : ℚ, (num : ℚ) / den = (num / den : ℕ) + fraction ∧ 0 ≤ fraction ∧ fraction < 1 ∧
      (2 * (num % den) < den ↔ fraction < 1 / 2) ∧ (den < 2 * (num % den) ↔ 1 / 2 < fraction) := by
  have hden' : (0 : ℚ) < den := by exact_mod_cast hden
  have hnum : ((den * (num / den) + num % den : ℕ) : ℚ) = num := by rw [Nat.div_add_mod]
  have hrest : ((num % den : ℕ) : ℚ) < den := by exact_mod_cast Nat.mod_lt num hden
  refine ⟨(num % den : ℕ) / den, ?_, by positivity, (div_lt_one hden').mpr hrest, ?_, ?_⟩
  · rw [div_eq_iff hden'.ne', add_mul, div_mul_cancel₀ _ hden'.ne', ← hnum]
    push_cast
    ring
  · rw [div_lt_div_iff₀ hden' two_pos, one_mul, mul_comm]
    exact_mod_cast Iff.rfl
  · rw [div_lt_div_iff₀ two_pos hden', one_mul, mul_comm _ (2 : ℚ)]
    exact_mod_cast Iff.rfl

/-- The rounded quotient is at most a half away. -/
theorem abs_sub_roundHalfEven_le (num : ℕ) (hden : 0 < den) :
    |(num : ℚ) / den - roundHalfEven num den| ≤ 1 / 2 := by
  obtain ⟨fraction, hquot, hnonneg, hlt, hbelow, habove⟩ := exists_fraction num hden
  rw [hquot, abs_le]
  unfold roundHalfEven
  dsimp only
  split
  next h =>
    have h := hbelow.mp h
    constructor <;> linarith
  next h =>
    have h := not_lt.mp (mt hbelow.mpr h)
    split
    next => push_cast; constructor <;> linarith
    next h' =>
      have h' := not_lt.mp (mt habove.mpr h')
      split
      next => constructor <;> linarith
      next => push_cast; constructor <;> linarith

/-- A quotient halfway between two integers is rounded to the even one. -/
theorem even_roundHalfEven (hden : 0 < den)
    (h : |(num : ℚ) / den - roundHalfEven num den| = 1 / 2) : roundHalfEven num den % 2 = 0 := by
  obtain ⟨fraction, hquot, hnonneg, hlt, hbelow, habove⟩ := exists_fraction num hden
  unfold roundHalfEven at h ⊢
  dsimp only at h ⊢
  -- strictly on one side of a half the distance is less than a half
  by_cases hlow : 2 * (num % den) < den
  · rw [if_pos hlow, hquot, add_sub_cancel_left, abs_of_nonneg hnonneg] at h
    exact absurd h (hbelow.mp hlow).ne
  · by_cases hhigh : den < 2 * (num % den)
    · have hhalf := habove.mp hhigh
      rw [if_neg hlow, if_pos hhigh, hquot, Nat.cast_add_one, add_sub_add_left_eq_sub,
        abs_of_nonpos (by linarith)] at h
      linarith
    · rw [if_neg hlow, if_neg hhigh]
      split <;> omega

/-- An integer less than a half away from a quotient is the rounded quotient. -/
theorem roundHalfEven_eq (hden : 0 < den) {k : ℕ} (h : |(num : ℚ) / den - k| < 1 / 2) :
    roundHalfEven num den = k := by
  have hround := abs_sub_roundHalfEven_le num hden
  have hclose : |(roundHalfEven num den : ℚ) - k| < 1 := by
    have htri := abs_sub_le (roundHalfEven num den : ℚ) (num / den) k
    rw [abs_sub_comm _ ((num : ℚ) / den)] at htri
    linarith
  have hint : |(roundHalfEven num den : ℤ) - k| < 1 := by exact_mod_cast hclose
  rw [Int.abs_lt_one_iff, sub_eq_zero] at hint
  exact_mod_cast hint

/-- No integer is nearer to a quotient than the rounded quotient. -/
theorem nearest_roundHalfEven (hden : 0 < den) (k : ℕ) :
    |(num : ℚ) / den - roundHalfEven num den| ≤ |(num : ℚ) / den - k| := by
  rcases lt_or_ge |(num : ℚ) / den - k| (1 / 2) with hk | hk
  · rw [roundHalfEven_eq hden hk]
  · exact (abs_sub_roundHalfEven_le num hden).trans hk

end Integer

/-! ## The binade of a fraction -/

/-- A fraction lies in the binade that its logarithm names. -/
theorem floorLog2_spec {num den : ℕ} (hnum : 0 < num) (hden : 0 < den) :
    (2 : ℚ) ^ floorLog2 num den ≤ num / den ∧ (num : ℚ) / den < 2 ^ (floorLog2 num den + 1) := by
  have hnum' : (0 : ℚ) < num := by exact_mod_cast hnum
  have hden' : (0 : ℚ) < den := by exact_mod_cast hden
  have hnumLow : (2 : ℚ) ^ (Nat.log2 num : ℤ) ≤ num := by
    rw [zpow_natCast]
    exact_mod_cast Nat.log2_self_le hnum.ne'
  have hnumHigh : (num : ℚ) < 2 ^ ((Nat.log2 num : ℤ) + 1) := by
    rw [← Nat.cast_one, ← Nat.cast_add, zpow_natCast]
    exact_mod_cast Nat.lt_log2_self
  have hdenLow : (2 : ℚ) ^ (Nat.log2 den : ℤ) ≤ den := by
    rw [zpow_natCast]
    exact_mod_cast Nat.log2_self_le hden.ne'
  have hdenHigh : (den : ℚ) < 2 ^ ((Nat.log2 den : ℤ) + 1) := by
    rw [← Nat.cast_one, ← Nat.cast_add, zpow_natCast]
    exact_mod_cast Nat.lt_log2_self
  -- the difference of the logarithms is the logarithm or one more
  have hhigh : (num : ℚ) / den < 2 ^ ((Nat.log2 num : ℤ) - Nat.log2 den + 1) := by
    rw [div_lt_iff₀ hden']
    calc (num : ℚ) < 2 ^ ((Nat.log2 num : ℤ) + 1) := hnumHigh
      _ = 2 ^ ((Nat.log2 num : ℤ) - Nat.log2 den + 1) * 2 ^ (Nat.log2 den : ℤ) := by
        rw [← zpow_add₀ two_ne_zero]
        congr 1
        omega
      _ ≤ 2 ^ ((Nat.log2 num : ℤ) - Nat.log2 den + 1) * den := by gcongr
  have hlow : (2 : ℚ) ^ ((Nat.log2 num : ℤ) - Nat.log2 den - 1) ≤ num / den := by
    rw [le_div_iff₀ hden']
    calc (2 : ℚ) ^ ((Nat.log2 num : ℤ) - Nat.log2 den - 1) * den
        ≤ 2 ^ ((Nat.log2 num : ℤ) - Nat.log2 den - 1) * 2 ^ ((Nat.log2 den : ℤ) + 1) := by gcongr
      _ = 2 ^ (Nat.log2 num : ℤ) := by
        rw [← zpow_add₀ two_ne_zero]
        congr 1
        omega
      _ ≤ num := hnumLow
  have htest (k : ℤ) : den * powerNum 2 k ≤ num * powerDen 2 k ↔ (2 : ℚ) ^ k ≤ num / den := by
    have hpower := powerNum_div_powerDen 2 k
    have hpowerDen : (0 : ℚ) < powerDen 2 k := by exact_mod_cast powerDen_pos two_pos k
    rw [Nat.cast_ofNat] at hpower
    rw [← hpower, div_le_div_iff₀ hpowerDen hden', mul_comm (den : ℕ)]
    exact_mod_cast Iff.rfl
  unfold floorLog2
  dsimp only
  split
  next h => exact ⟨(htest _).mp h, hhigh⟩
  next h =>
    rw [sub_add_cancel]
    exact ⟨hlow, not_le.mp (mt (htest _).mpr h)⟩

/-- The logarithm is less than `k` when the fraction is less than `2 ^ k`. -/
theorem floorLog2_lt {num den : ℕ} (hnum : 0 < num) (hden : 0 < den) {k : ℤ}
    (h : (num : ℚ) / den < 2 ^ k) : floorLog2 num den < k :=
  (zpow_lt_zpow_iff_right₀ one_lt_two).mp ((floorLog2_spec hnum hden).1.trans_lt h)

/-- The logarithm is at least `k` when the fraction is at least `2 ^ k`. -/
theorem le_floorLog2 {num den : ℕ} (hnum : 0 < num) (hden : 0 < den) {k : ℤ}
    (h : (2 : ℚ) ^ k ≤ num / den) : k ≤ floorLog2 num den :=
  Int.lt_add_one_iff.mp
    ((zpow_lt_zpow_iff_right₀ one_lt_two).mp (h.trans_lt (floorLog2_spec hnum hden).2))

/-! ## The grid of a fraction -/

/-- The exponent of the grid on which a fraction is rounded. -/
def unitExponent (num den : ℕ) : ℤ := max (-1074) (floorLog2 num den - 52)

/-- The point of the grid that is taken. -/
def unitMantissa (num den : ℕ) : ℕ :=
  roundHalfEven (num * powerDen 2 (unitExponent num den)) (den * powerNum 2 (unitExponent num den))

section Grid

variable {num den : ℕ}

/-- A result is a point of the grid of the fraction; the point above all of the 53 bits is the
first of the next grid. -/
theorem ofRatio_eq_pack (negative : Bool) (hnum : 0 < num) :
    ofRatio negative num den =
      if unitMantissa num den < 2 * leadingBit then
        pack negative (unitMantissa num den) (unitExponent num den)
      else pack negative leadingBit (unitExponent num den + 1) := by
  unfold ofRatio
  rw [if_neg hnum.ne']
  rfl

/-- No unit is below that of the least numbers. -/
theorem le_unitExponent (num den : ℕ) : -1074 ≤ unitExponent num den := le_max_left _ _

/-- The grid is no coarser than a bound on the fraction allows. -/
theorem unitExponent_le (hnum : 0 < num) (hden : 0 < den) {k : ℤ} (hk : -1021 ≤ k)
    (h : (num : ℚ) / den < 2 ^ k) : unitExponent num den ≤ k - 53 := by
  have hlog := floorLog2_lt hnum hden h
  unfold unitExponent
  omega

/-- The grid is at least as coarse as a bound on the fraction demands. -/
theorem le_unitExponent_of_le (hnum : 0 < num) (hden : 0 < den) {k : ℤ}
    (h : (2 : ℚ) ^ k ≤ num / den) : k - 52 ≤ unitExponent num den := by
  have hlog := le_floorLog2 hnum hden h
  unfold unitExponent
  omega

/-- The grid of the binades above the finest grid. -/
theorem unitExponent_eq (hnum : 0 < num) (hden : 0 < den) {k : ℤ} (hk : -1074 ≤ k)
    (hlow : (2 : ℚ) ^ (k + 52) ≤ num / den) (hhigh : (num : ℚ) / den < 2 ^ (k + 53)) :
    unitExponent num den = k := by
  have hle := le_floorLog2 hnum hden hlow
  have hlt := floorLog2_lt hnum hden hhigh
  unfold unitExponent
  omega

/-- The fraction is less than `2 ^ 53` units. -/
theorem div_lt_unit (hnum : 0 < num) (hden : 0 < den) :
    (num : ℚ) / den / 2 ^ unitExponent num den < 2 ^ 53 := by
  have hbinade := (floorLog2_spec hnum hden).2
  have hexponent : floorLog2 num den + 1 ≤ 53 + unitExponent num den := by
    unfold unitExponent
    omega
  rw [div_lt_iff₀ (by positivity), ← zpow_natCast, ← zpow_add₀ two_ne_zero]
  exact hbinade.trans_le (zpow_le_zpow_right₀ one_le_two hexponent)

/-- The fraction is at least `2 ^ 52` units, unless the grid is the finest one. -/
theorem le_div_unit (hnum : 0 < num) (hden : 0 < den) (h : unitExponent num den ≠ -1074) :
    2 ^ 52 ≤ (num : ℚ) / den / 2 ^ unitExponent num den := by
  have hbinade := (floorLog2_spec hnum hden).1
  have hexponent : 52 + unitExponent num den = floorLog2 num den := by
    unfold unitExponent at h ⊢
    omega
  rw [le_div_iff₀ (by positivity), ← zpow_natCast, ← zpow_add₀ two_ne_zero]
  rwa [Nat.cast_ofNat, hexponent]

/-- The point that is taken is at most half a unit away. -/
theorem abs_sub_unitMantissa_le (num : ℕ) (hden : 0 < den) :
    |(num : ℚ) / den / 2 ^ unitExponent num den - unitMantissa num den| ≤ 1 / 2 := by
  rw [← mul_powerDen_div]
  exact abs_sub_roundHalfEven_le _ (Nat.mul_pos hden (powerNum_pos two_pos _))

/-- Halfway between two points the even one is taken. -/
theorem even_unitMantissa (num : ℕ) (hden : 0 < den)
    (h : |(num : ℚ) / den / 2 ^ unitExponent num den - unitMantissa num den| = 1 / 2) :
    unitMantissa num den % 2 = 0 := by
  rw [← mul_powerDen_div] at h
  exact even_roundHalfEven (Nat.mul_pos hden (powerNum_pos two_pos _)) h

/-- No point of the grid is nearer than the one that is taken. -/
theorem nearest_unitMantissa (hden : 0 < den) (k : ℕ) :
    |(num : ℚ) / den / 2 ^ unitExponent num den - unitMantissa num den| ≤
      |(num : ℚ) / den / 2 ^ unitExponent num den - k| := by
  rw [← mul_powerDen_div]
  exact nearest_roundHalfEven (Nat.mul_pos hden (powerNum_pos two_pos _)) k

/-- Counted in its unit, a fraction has at most one bit more than fits. -/
theorem unitMantissa_le (hnum : 0 < num) (hden : 0 < den) :
    unitMantissa num den ≤ 2 * leadingBit := by
  have hround := (abs_le.mp (abs_sub_unitMantissa_le num hden)).1
  have hlt := div_lt_unit hnum hden
  have h : (unitMantissa num den : ℚ) < (2 * leadingBit + 1 : ℕ) := by
    push_cast
    linarith
  exact Nat.lt_succ_iff.mp (Nat.cast_lt.mp h)

/-- Counted in its unit, a fraction has its leading bit, unless it is among the least. -/
theorem leadingBit_le_unitMantissa (hnum : 0 < num) (hden : 0 < den)
    (h : unitExponent num den ≠ -1074) : leadingBit ≤ unitMantissa num den := by
  have hround := (abs_le.mp (abs_sub_unitMantissa_le num hden)).2
  have hle := le_div_unit hnum hden h
  have h : (leadingBit : ℚ) < (unitMantissa num den + 1 : ℕ) := by
    push_cast
    linarith
  exact Nat.lt_succ_iff.mp (Nat.cast_lt.mp h)

end Grid

/-! ## What a result says of the fraction -/

section Result

variable {num den : ℕ} {negative s : Bool} {m n : ℕ} {e f : ℤ} {hc : Canonical m e}

/-- What is packed to a finite number is packed as it is. -/
theorem pack_eq_finite (h : pack negative n f = .finite s m e hc) :
    s = negative ∧ m = n ∧ e = f := by
  unfold pack at h
  split at h
  next => exact ⟨(Binary64.finite.inj h).1.symm, (Binary64.finite.inj h).2.1.symm,
    (Binary64.finite.inj h).2.2.symm⟩
  next => exact absurd h (by simp)

/-- A finite result has the sign asked for, and its magnitude is the point that is taken. -/
theorem point_of_ofRatio (hnum : 0 < num) (hden : 0 < den)
    (h : ofRatio negative num den = .finite s m e hc) :
    s = negative ∧ unitExponent num den ≤ e ∧
      (m : ℚ) * 2 ^ e = unitMantissa num den * 2 ^ unitExponent num den := by
  rw [ofRatio_eq_pack negative hnum] at h
  split at h
  next =>
    obtain ⟨rfl, rfl, rfl⟩ := pack_eq_finite h
    exact ⟨rfl, le_rfl, rfl⟩
  next hlarge =>
    obtain ⟨rfl, rfl, rfl⟩ := pack_eq_finite h
    have hpoint : unitMantissa num den = 2 * leadingBit :=
      le_antisymm (unitMantissa_le hnum hden) (not_lt.mp hlarge)
    refine ⟨rfl, by omega, ?_⟩
    rw [hpoint, zpow_add_one₀ two_ne_zero]
    push_cast
    ring

/-- Rounding keeps the sign. -/
theorem sign_of_ofRatio (hden : 0 < den) (h : ofRatio negative num den = .finite s m e hc) :
    s = negative := by
  rcases Nat.eq_zero_or_pos num with rfl | hnum
  · exact (Binary64.finite.inj h).1.symm
  · exact (point_of_ofRatio hnum hden h).1

/-- The distance of a result from the fraction is measured on the grid. -/
theorem abs_sub_eq_of_ofRatio (hnum : 0 < num) (hden : 0 < den)
    (h : ofRatio negative num den = .finite s m e hc) :
    |(num : ℚ) / den - m * 2 ^ e| =
      |(num : ℚ) / den / 2 ^ unitExponent num den - unitMantissa num den| *
        2 ^ unitExponent num den := by
  rw [(point_of_ofRatio hnum hden h).2.2, abs_div_sub_mul (by positivity)]

/-- A finite result is at most half a unit of it away from the fraction. -/
theorem abs_sub_le_of_ofRatio (hden : 0 < den)
    (h : ofRatio negative num den = .finite s m e hc) :
    |(num : ℚ) / den - m * 2 ^ e| ≤ 2 ^ e / 2 := by
  rcases Nat.eq_zero_or_pos num with rfl | hnum
  · obtain ⟨-, rfl, rfl⟩ := Binary64.finite.inj h
    rw [Nat.cast_zero, zero_div, zero_mul, sub_zero, abs_zero]
    positivity
  · have hround := abs_sub_unitMantissa_le num hden
    have hle : (2 : ℚ) ^ unitExponent num den ≤ 2 ^ e :=
      zpow_le_zpow_right₀ one_le_two (point_of_ofRatio hnum hden h).2.1
    calc |(num : ℚ) / den - m * 2 ^ e|
        = |(num : ℚ) / den / 2 ^ unitExponent num den - unitMantissa num den| *
            2 ^ unitExponent num den := abs_sub_eq_of_ofRatio hnum hden h
      _ ≤ 1 / 2 * 2 ^ unitExponent num den := by gcongr
      _ ≤ 1 / 2 * 2 ^ e := by gcongr
      _ = 2 ^ e / 2 := by ring

/-- A finite result is near to a fraction less than `2 ^ k`, even if the result is `2 ^ k`. -/
theorem abs_sub_le_of_lt (hden : 0 < den) (h : ofRatio negative num den = .finite s m e hc) {k : ℤ}
    (hk : -1021 ≤ k) (hlt : (num : ℚ) / den < 2 ^ k) :
    |(num : ℚ) / den - m * 2 ^ e| ≤ 2 ^ (k - 54) := by
  rcases Nat.eq_zero_or_pos num with rfl | hnum
  · obtain ⟨-, rfl, rfl⟩ := Binary64.finite.inj h
    rw [Nat.cast_zero, zero_div, zero_mul, sub_zero, abs_zero]
    positivity
  · have hround := abs_sub_unitMantissa_le num hden
    have hle : (2 : ℚ) ^ unitExponent num den ≤ 2 ^ (k - 53) :=
      zpow_le_zpow_right₀ one_le_two (unitExponent_le hnum hden hk hlt)
    calc |(num : ℚ) / den - m * 2 ^ e|
        = |(num : ℚ) / den / 2 ^ unitExponent num den - unitMantissa num den| *
            2 ^ unitExponent num den := abs_sub_eq_of_ofRatio hnum hden h
      _ ≤ 1 / 2 * 2 ^ unitExponent num den := by gcongr
      _ ≤ 1 / 2 * 2 ^ (k - 53) := by gcongr
      _ = 2 ^ (k - 54) := by
        rw [show k - 53 = k - 54 + 1 by omega, zpow_add_one₀ two_ne_zero]
        ring

/-- Nothing in the format is nearer to the fraction than a finite result. -/
theorem nearest_of_ofRatio (hden : 0 < den) (h : ofRatio negative num den = .finite s m e hc)
    (hn : n ≤ 2 * leadingBit) (hf : -1074 ≤ f) :
    |(num : ℚ) / den - m * 2 ^ e| ≤ |(num : ℚ) / den - n * 2 ^ f| := by
  rcases Nat.eq_zero_or_pos num with rfl | hnum
  · obtain ⟨-, rfl, rfl⟩ := Binary64.finite.inj h
    rw [Nat.cast_zero, zero_div, zero_mul, sub_zero, abs_zero]
    exact abs_nonneg _
  have hunit : (0 : ℚ) < 2 ^ unitExponent num den := by positivity
  -- no point of the grid is nearer
  have hgrid (k : ℕ) : |(num : ℚ) / den - m * 2 ^ e| ≤
      |(num : ℚ) / den - k * 2 ^ unitExponent num den| := by
    rw [abs_sub_eq_of_ofRatio hnum hden h]
    calc |(num : ℚ) / den / 2 ^ unitExponent num den - unitMantissa num den| *
          2 ^ unitExponent num den
        ≤ |(num : ℚ) / den / 2 ^ unitExponent num den - k| * 2 ^ unitExponent num den :=
          mul_le_mul_of_nonneg_right (nearest_unitMantissa hden k) hunit.le
      _ = |(num : ℚ) / den - k * 2 ^ unitExponent num den| := abs_div_sub_mul hunit _ _
  rcases le_or_gt (unitExponent num den) f with hcoarse | hfine
  · -- a number of a coarser grid is on this one
    have hpoint : (n : ℚ) * 2 ^ f =
        (n * 2 ^ (f - unitExponent num den).toNat : ℕ) * 2 ^ unitExponent num den := by
      push_cast
      rw [mul_assoc, ← zpow_natCast, Int.toNat_of_nonneg (by omega), ← zpow_add₀ two_ne_zero]
      congr 2
      omega
    rw [hpoint]
    exact hgrid _
  · -- a number of a finer grid lies below the binade, whose first point is nearer
    have hbinade := le_div_unit hnum hden (by omega)
    rw [le_div_iff₀ hunit] at hbinade
    have hbelow : (n : ℚ) * 2 ^ f ≤ 2 ^ 52 * 2 ^ unitExponent num den := by
      have hn' : (n : ℚ) ≤ 2 ^ 53 := by exact_mod_cast hn
      calc (n : ℚ) * 2 ^ f ≤ 2 ^ 53 * 2 ^ (unitExponent num den - 1) := by
            gcongr
            · exact one_le_two
            · omega
        _ = 2 ^ 52 * 2 ^ unitExponent num den := by
            rw [zpow_sub_one₀ two_ne_zero]
            ring
    have hleading : ((leadingBit : ℕ) : ℚ) = 2 ^ 52 := by norm_num
    have hfirst := hgrid leadingBit
    rw [hleading, abs_of_nonneg (sub_nonneg.mpr hbinade)] at hfirst
    calc |(num : ℚ) / den - m * 2 ^ e|
        ≤ (num : ℚ) / den - 2 ^ 52 * 2 ^ unitExponent num den := hfirst
      _ ≤ (num : ℚ) / den - n * 2 ^ f := by linarith
      _ ≤ |(num : ℚ) / den - n * 2 ^ f| := le_abs_self _

end Result

/-! ## Which result a fraction has -/

section Which

variable {num den : ℕ} {m : ℕ} {e : ℤ}

/-- A fraction that is not beyond the format has a finite result. -/
theorem isFinite_ofRatio (negative : Bool) (hden : 0 < den) (h : (num : ℚ) / den < 2 ^ 1023) :
    (ofRatio negative num den).isFinite = true := by
  rcases Nat.eq_zero_or_pos num with rfl | hnum
  · rfl
  have hlow := le_unitExponent num den
  have hlt : (num : ℚ) / den < 2 ^ (1023 : ℤ) := by exact_mod_cast h
  have hhigh : unitExponent num den ≤ 970 := unitExponent_le hnum hden (by norm_num) hlt
  rw [ofRatio_eq_pack negative hnum]
  split
  next hsmall =>
    have hcanonical : Canonical (unitMantissa num den) (unitExponent num den) := by
      refine ⟨hsmall, hlow, by omega, ?_⟩
      by_cases hfinest : unitExponent num den = -1074
      · exact .inr hfinest
      · exact .inl (leadingBit_le_unitMantissa hnum hden hfinest)
    rw [pack, dif_pos hcanonical]
    rfl
  next =>
    have hcanonical : Canonical leadingBit (unitExponent num den + 1) :=
      ⟨by norm_num, by omega, by omega, .inl le_rfl⟩
    rw [pack, dif_pos hcanonical]
    rfl

/-- A finite number has a mantissa and an exponent. -/
theorem exists_of_isFinite {x : Binary64} (h : x.isFinite) :
    ∃ s m e hc, x = finite s m e hc := by
  obtain ⟨s, m, e, hc⟩ | _ | _ := x
  · exact ⟨s, m, e, hc, rfl⟩
  · exact absurd h Bool.false_ne_true
  · exact absurd h Bool.false_ne_true

/-- A fraction that is not beyond the format has a result with the sign asked for. -/
theorem exists_ofRatio_eq (negative : Bool) (hden : 0 < den) (h : (num : ℚ) / den < 2 ^ 1023) :
    ∃ m e hc, ofRatio negative num den = finite negative m e hc := by
  obtain ⟨s, m, e, hc, hresult⟩ := exists_of_isFinite (isFinite_ofRatio negative hden h)
  obtain rfl := sign_of_ofRatio hden hresult
  exact ⟨m, e, hc, hresult⟩

/-- A fraction less than half a unit away from a number rounds to it; the unit below a power of two
is smaller, so the fraction must not lie there. -/
theorem ofRatio_eq_finite (negative : Bool) (hden : 0 < den) (hc : Canonical m e)
    (hlow : e = -1074 ∨ leadingBit * 2 ^ e ≤ (num : ℚ) / den)
    (h : |(num : ℚ) / den - m * 2 ^ e| < 2 ^ e / 2) :
    ofRatio negative num den = .finite negative m e hc := by
  have hunit : (0 : ℚ) < 2 ^ e := by positivity
  rcases Nat.eq_zero_or_pos num with rfl | hnum
  · have hm : m = 0 := by
      rw [Nat.cast_zero, zero_div, zero_sub, abs_neg, abs_of_nonneg (by positivity)] at h
      have hm : (m : ℚ) < 1 := by nlinarith
      exact_mod_cast Nat.lt_one_iff.mp (by exact_mod_cast hm)
    obtain ⟨-, -, -, hm' | rfl⟩ := hc
    · omega
    · subst hm
      rfl
  have hhigh : (num : ℚ) / den < 2 ^ (e + 53) := by
    have hm : (m : ℚ) + 1 ≤ 2 ^ 53 := by exact_mod_cast hc.1
    rw [zpow_add₀ two_ne_zero]
    have := (abs_lt.mp h).2
    norm_num at hm ⊢
    nlinarith
  have hexponent : unitExponent num den = e := by
    have hlt := floorLog2_lt hnum hden hhigh
    unfold unitExponent
    rcases hlow with rfl | hlow
    · omega
    · have hle : e + 52 ≤ floorLog2 num den := by
        refine le_floorLog2 hnum hden ?_
        rw [zpow_add₀ two_ne_zero]
        norm_num at hlow ⊢
        linarith
      have := hc.2.1
      omega
  have hmantissa : unitMantissa num den = m := by
    unfold unitMantissa
    refine roundHalfEven_eq (Nat.mul_pos hden (powerNum_pos two_pos _)) ?_
    rw [mul_powerDen_div, hexponent]
    have hscaled : |(num : ℚ) / den / 2 ^ e - m| * 2 ^ e < 1 / 2 * 2 ^ e := by
      rw [abs_div_sub_mul hunit]
      linarith
    exact lt_of_mul_lt_mul_right hscaled hunit.le
  rw [ofRatio_eq_pack negative hnum, hmantissa, hexponent, if_pos hc.1, pack, dif_pos hc]

/-- A fraction that is a number of the format rounds to it. -/
theorem ofRatio_of_eq (negative : Bool) (hden : 0 < den) (hc : Canonical m e)
    (h : (num : ℚ) / den = m * 2 ^ e) : ofRatio negative num den = .finite negative m e hc := by
  refine ofRatio_eq_finite negative hden hc ?_ ?_
  · refine hc.2.2.2.symm.imp_right fun hm => ?_
    rw [h]
    gcongr
  · rw [h, sub_self, abs_zero]
    positivity

end Which

end Patchbay.Binary64
