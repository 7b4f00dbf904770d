import Mathlib.Data.List.TakeWhile
import Patchbay.Patch.Value
import Patchbay.Proofs.Number.Rounding

/-!
# Numerals tell numbers apart

A numeral in the code has digits, perhaps a point and perhaps a minus sign.  It writes a fraction
(`numeralValue`), and the number that it stands for is the one nearest to the fraction: the search
for the digits of a number ends at digits that read back as the number, or with all of its digits
(`rounds_shortestDecimal`), and positional notation keeps the fraction
(`Positional.numeralValue_eq`).  There is one nearest number, so finite numbers with the same
numeral are the same (`text_injective`).
-/

namespace Patchbay

namespace Binary64

/-! ## Fractions in another form -/

section Form

variable {num den num' den' : ℕ}

/-- The binary logarithm of a fraction depends on its value only. -/
theorem floorLog2_congr (hnum : 0 < num) (hden : 0 < den) (hnum' : 0 < num') (hden' : 0 < den')
    (h : (num : ℚ) / den = num' / den') : floorLog2 num den = floorLog2 num' den' :=
  le_antisymm (le_floorLog2 hnum' hden' (h ▸ (floorLog2_spec hnum hden).1))
    (le_floorLog2 hnum hden (h ▸ (floorLog2_spec hnum' hden').1))

/-- A quotient is rounded in the same way whatever its numerator and denominator are. -/
theorem roundHalfEven_congr (hden : 0 < den) (hden' : 0 < den')
    (h : (num : ℚ) / den = num' / den') : roundHalfEven num den = roundHalfEven num' den' := by
  have hclose := abs_sub_roundHalfEven_le num hden
  have hclose' := abs_sub_roundHalfEven_le num' hden'
  rcases hclose.lt_or_eq with hlt | hhalf
  · exact (roundHalfEven_eq hden' (h ▸ hlt)).symm
  rcases hclose'.lt_or_eq with hlt' | hhalf'
  · exact roundHalfEven_eq hden (h ▸ hlt')
  -- halfway between two integers both are even, and they are not further apart than one
  have heven := even_roundHalfEven hden hhalf
  have heven' := even_roundHalfEven hden' hhalf'
  have hdist : |(roundHalfEven num den : ℚ) - roundHalfEven num' den'| ≤ 1 := by
    have htri := abs_sub_le (roundHalfEven num den : ℚ) (num / den) (roundHalfEven num' den')
    rw [abs_sub_comm _ ((num : ℚ) / den), hhalf, h, hhalf'] at htri
    linarith
  have hint : |(roundHalfEven num den : ℤ) - roundHalfEven num' den'| ≤ 1 := by exact_mod_cast hdist
  rw [abs_le] at hint
  omega

/-- A result depends on the fraction alone. -/
theorem ofRatio_congr (negative : Bool) (hden : 0 < den) (hden' : 0 < den')
    (h : (num : ℚ) / den = num' / den') :
    ofRatio negative num den = ofRatio negative num' den' := by
  rcases Nat.eq_zero_or_pos num with rfl | hnum
  · have hzero : num' = 0 := by
      rw [Nat.cast_zero, zero_div, eq_comm, div_eq_zero_iff] at h
      rcases h with h | h
      · exact_mod_cast h
      · exact absurd (by exact_mod_cast h) hden'.ne'
    rw [hzero]
    rfl
  · have hpos : (0 : ℚ) < num / den := by positivity
    have hnum' : 0 < num' := num_pos_of_div_pos den' (h ▸ hpos)
    have hexponent : unitExponent num den = unitExponent num' den' := by
      rw [unitExponent, floorLog2_congr hnum hden hnum' hden' h, unitExponent]
    have hmantissa : unitMantissa num den = unitMantissa num' den' := by
      refine roundHalfEven_congr (Nat.mul_pos hden (powerNum_pos two_pos _))
        (Nat.mul_pos hden' (powerNum_pos two_pos _)) ?_
      rw [mul_powerDen_div, mul_powerDen_div, h, hexponent]
    rw [ofRatio_eq_pack negative hnum, ofRatio_eq_pack negative hnum', hexponent, hmantissa]

end Form

/-- A number is the one nearest to a fraction that is not negative. -/
def Rounds (q : ℚ) (x : Binary64) : Prop :=
  ∃ num den : ℕ, 0 < den ∧ (num : ℚ) / den = q ∧ ofRatio false num den = x

/-- There is one nearest number. -/
theorem Rounds.unique {q : ℚ} {x y : Binary64} (hx : Rounds q x) (hy : Rounds q y) : x = y := by
  obtain ⟨num, den, hden, hq, rfl⟩ := hx
  obtain ⟨num', den', hden', hq', rfl⟩ := hy
  exact ofRatio_congr false hden hden' (hq.trans hq'.symm)

end Binary64

open Binary64

/-! ## Decimals -/

namespace Decimal

/-- The fraction that a decimal writes. -/
def value (d : Decimal) : ℚ := d.coefficient * 10 ^ d.exponent

/-- The value of a decimal as the fraction that is rounded. -/
theorem div_eq_value (d : Decimal) :
    ((d.coefficient * powerNum 10 d.exponent : ℕ) : ℚ) / powerDen 10 d.exponent = d.value := by
  rw [Nat.cast_mul, mul_div_assoc, powerNum_div_powerDen, value, Nat.cast_ofNat]

/-- A decimal that reads as a number other than zero and the infinities is nearest to it. -/
theorem rounds_of_toBinary64 {d : Decimal} {m : ℕ} {e : ℤ} {hc : Canonical m e} (hm : m ≠ 0)
    (h : d.toBinary64 false = .finite false m e hc) : Rounds d.value (.finite false m e hc) := by
  unfold toBinary64 at h
  split at h
  next => exact absurd (Binary64.finite.inj h).2.1.symm hm
  next =>
    split at h
    next => exact absurd h (by simp)
    next =>
      split at h
      next => exact absurd (Binary64.finite.inj h).2.1.symm hm
      next => exact ⟨_, _, powerDen_pos (by norm_num) _, d.div_eq_value, h⟩

end Decimal

namespace Binary64

variable {m : ℕ} {e : ℤ}

/-- What the search finds reads back. -/
theorem rounds_of_searchGrids {tie : TieRule} {hc : Canonical m e} (hm : m ≠ 0) {grids : ℕ}
    {top : ℤ} {d : Decimal}
    (h : searchGrids tie (.finite false m e hc) m e grids top = some d) :
    Rounds d.value (.finite false m e hc) := by
  -- the grids are tried from the coarsest on; whichever one answers has been read back
  induction grids generalizing top with
  | zero => exact absurd h (by simp [searchGrids])
  | succ grids ih =>
    rw [searchGrids] at h
    split at h
    next c hfound =>
      obtain rfl := Option.some.inj h
      have hreads : Decimal.toBinary64 false ⟨c, top⟩ = .finite false m e hc := by
        simpa only [decide_eq_true_eq] using List.find?_some hfound
      exact Decimal.rounds_of_toBinary64 hm hreads
    next => exact ih h

/-- A number is the one nearest to itself. -/
theorem rounds_of_eq {d : Decimal} (hc : Canonical m e) (h : d.value = m * 2 ^ e) :
    Rounds d.value (.finite false m e hc) :=
  have hfraction := d.div_eq_value
  ⟨_, _, powerDen_pos (by norm_num) _, hfraction,
    ofRatio_of_eq false (powerDen_pos (by norm_num) _) hc (hfraction.trans h)⟩

/-- All decimal digits of a number write it. -/
theorem value_exactDecimal (m : ℕ) (e : ℤ) : (exactDecimal m e).value = m * 2 ^ e := by
  unfold exactDecimal
  split
  next he =>
    have hpower := powerNum_div_powerDen 2 e
    rw [powerDen, Int.toNat_of_nonpos (Int.neg_nonpos_of_nonneg he), Nat.pow_eq, pow_zero,
      Nat.cast_one, div_one, Nat.cast_ofNat] at hpower
    rw [Decimal.value, Nat.cast_mul, hpower, zpow_zero, mul_one]
  next he =>
    have hpower := powerNum_div_powerDen 5 e
    rw [powerNum, Int.toNat_of_nonpos (by omega), Nat.pow_eq, pow_zero, Nat.cast_one, one_div,
      Nat.cast_ofNat] at hpower
    have hden : (powerDen 5 e : ℚ) * 5 ^ e = 1 := by
      rw [← hpower, mul_inv_cancel₀]
      exact_mod_cast (powerDen_pos (by norm_num) e).ne'
    have hten : (10 : ℚ) ^ e = 5 ^ e * 2 ^ e := by rw [← mul_zpow]; norm_num
    rw [Decimal.value, Nat.cast_mul, hten]
    calc (m : ℚ) * powerDen 5 e * (5 ^ e * 2 ^ e)
        = m * (powerDen 5 e * 5 ^ e) * 2 ^ e := by ring
      _ = m * 2 ^ e := by rw [hden, mul_one]

/-- The digits of a number read back as the number. -/
theorem rounds_shortestDecimal (tie : TieRule) (hc : Canonical m e) :
    Rounds (shortestDecimal tie m e hc).value (.finite false m e hc) := by
  unfold shortestDecimal
  split
  next hm =>
    refine rounds_of_eq hc ?_
    rw [Decimal.value, hm, Nat.cast_zero, zero_mul, zero_mul]
  next hm =>
    cases hsearch : searchGrids tie (.finite false m e hc) m e 24
      (((Nat.log2 m : ℤ) + e + 1) * 30103 / 100000 + 1) with
    | none =>
      simp only [hsearch, Option.getD_none]
      exact rounds_of_eq hc (value_exactDecimal m e)
    | some d =>
      simp only [hsearch, Option.getD_some]
      exact rounds_of_searchGrids hm hsearch

end Binary64

/-! ## Numerals -/

/-- The fraction that a numeral without an exponent writes: its digits as a whole number, divided by
ten for each of those after the point. -/
def numeralValue (text : List Char) : ℚ :=
  Nat.ofDigitChars 10 (text.filter (· != '.')) 0 / 10 ^ ((text.dropWhile (· != '.')).length - 1)

section Forms

variable {digits whole fraction : List Char}

/-- Digits without a point are not changed by taking points out. -/
theorem filter_ne_point (h : '.' ∉ digits) : digits.filter (· != '.') = digits :=
  List.filter_eq_self.2 fun _ hc => bne_iff_ne.2 (ne_of_mem_of_not_mem hc h)

/-- Digits without a point have their whole value. -/
theorem numeralValue_whole (h : '.' ∉ digits) :
    numeralValue digits = Nat.ofDigitChars 10 digits 0 := by
  have hdrop : digits.dropWhile (· != '.') = [] :=
    List.dropWhile_eq_nil_iff.2 fun _ hc => bne_iff_ne.2 (ne_of_mem_of_not_mem hc h)
  rw [numeralValue, filter_ne_point h, hdrop, List.length_nil, Nat.zero_sub, pow_zero, div_one]

/-- Digits behind a point count as a fraction. -/
theorem numeralValue_point (hwhole : '.' ∉ whole) (hfraction : '.' ∉ fraction) :
    numeralValue (whole ++ '.' :: fraction)
      = Nat.ofDigitChars 10 (whole ++ fraction) 0 / 10 ^ fraction.length := by
  have hfilter : (whole ++ '.' :: fraction).filter (· != '.') = whole ++ fraction := by
    rw [List.filter_append, List.filter_cons_of_neg (by simp), filter_ne_point hwhole,
      filter_ne_point hfraction]
  have hdrop : (whole ++ '.' :: fraction).dropWhile (· != '.') = '.' :: fraction := by
    rw [List.dropWhile_append_of_pos fun _ hc => bne_iff_ne.2 (ne_of_mem_of_not_mem hc hwhole)]
    rfl
  rw [numeralValue, hfilter, hdrop, List.length_cons, Nat.add_sub_cancel]

/-- Zeros have no point among them. -/
theorem point_notMem_zeros (count : ℤ) : '.' ∉ NumberStyle.zeros count := fun h =>
  absurd (List.eq_of_mem_replicate h) (by decide)

/-- A power of ten that is not above one divides. -/
theorem ten_zpow_of_nonpos {e : ℤ} (he : e ≤ 0) : (10 : ℚ) ^ e = ((10 : ℚ) ^ (-e).toNat)⁻¹ := by
  rw [← zpow_natCast, Int.toNat_of_nonneg (by omega), zpow_neg, inv_inv]

/-- Digits in positional notation: with zeros between the point and the digits, with zeros behind
the digits and no point, or with the point between two digits. -/
inductive Positional (digits : List Char) (point : ℤ) : List Char → Prop
  | before (h : point ≤ 0) :
      Positional digits point (['0'] ++ '.' :: (NumberStyle.zeros (-point) ++ digits))
  | behind (h : digits.length ≤ point) :
      Positional digits point (digits ++ NumberStyle.zeros (point - digits.length))
  | inside (hpos : 0 < point) (hlt : point < digits.length) :
      Positional digits point (digits.take point.toNat ++ '.' :: digits.drop point.toNat)

/-- Digits are written in positional notation. -/
theorem positional_positionalText (style : NumberStyle) (hstyle : style.pointZero = false)
    (digits : List Char) (point : ℤ) :
    Positional digits point (style.positionalText digits point) := by
  unfold NumberStyle.positionalText
  split
  next hpoint => exact .before hpoint
  next hpoint =>
    split
    next hlength =>
      rw [hstyle, if_neg Bool.false_ne_true, List.append_nil]
      exact .behind hlength
    next hlength => exact .inside (by omega) (by omega)

namespace Positional

variable {text : List Char} {e point : ℤ}

/-- Positional notation keeps the fraction. -/
theorem numeralValue_eq (h : Positional digits (digits.length + e) text) (hdigits : '.' ∉ digits) :
    numeralValue text = Nat.ofDigitChars 10 digits 0 * 10 ^ e := by
  cases h with
  | before hpoint =>
    have hlength : (NumberStyle.zeros (-(digits.length + e)) ++ digits).length = (-e).toNat := by
      rw [List.length_append, NumberStyle.zeros, List.length_replicate]
      omega
    -- the zeros in front are more places, but not a larger number
    have hzeros :
        Nat.ofDigitChars 10 (['0'] ++ (NumberStyle.zeros (-(digits.length + e)) ++ digits)) 0
          = Nat.ofDigitChars 10 digits 0 := by
      rw [Nat.ofDigitChars_append, Nat.ofDigitChars_append, NumberStyle.zeros,
        Nat.ofDigitChars_replicate_zero]
      rfl
    rw [numeralValue_point (by decide) (List.not_mem_append (point_notMem_zeros _) hdigits),
      hlength, hzeros, ten_zpow_of_nonpos (by omega), div_eq_mul_inv]
  | behind hlength =>
    have he : 0 ≤ e := by omega
    rw [add_sub_cancel_left,
      numeralValue_whole (List.not_mem_append hdigits (point_notMem_zeros e)),
      Nat.ofDigitChars_append, NumberStyle.zeros, Nat.ofDigitChars_replicate_zero, Nat.cast_mul,
      Nat.cast_pow, Nat.cast_ofNat, mul_comm, ← zpow_natCast, Int.toNat_of_nonneg he]
  | inside hpos hlt =>
    have hcount : (digits.drop (digits.length + e).toNat).length = (-e).toNat := by
      rw [List.length_drop]
      omega
    rw [numeralValue_point (fun h => hdigits (List.mem_of_mem_take h))
      (fun h => hdigits (List.mem_of_mem_drop h)), List.take_append_drop, hcount,
      ten_zpow_of_nonpos (by omega), div_eq_mul_inv]

/-- The characters of positional notation are digits and the point. -/
theorem isDigit_or_eq_point (h : Positional digits point text) (hdigits : ∀ c ∈ digits, c.isDigit)
    {c : Char} (hc : c ∈ text) : c.isDigit ∨ c = '.' := by
  have hzeros : ∀ count, c ∈ NumberStyle.zeros count → c.isDigit := fun count h => by
    rw [List.eq_of_mem_replicate h]
    decide
  cases h with
  | before =>
    rw [List.mem_append, List.mem_singleton, List.mem_cons, List.mem_append] at hc
    rcases hc with rfl | rfl | hc | hc
    · exact .inl (by decide)
    · exact .inr rfl
    · exact .inl (hzeros _ hc)
    · exact .inl (hdigits c hc)
  | behind =>
    rcases List.mem_append.mp hc with hc | hc
    · exact .inl (hdigits c hc)
    · exact .inl (hzeros _ hc)
  | inside =>
    rw [List.mem_append, List.mem_cons] at hc
    rcases hc with hc | rfl | hc
    · exact .inl (hdigits c (List.mem_of_mem_take hc))
    · exact .inr rfl
    · exact .inl (hdigits c (List.mem_of_mem_drop hc))

theorem ne_nil (h : Positional digits point text) (hdigits : digits ≠ []) : text ≠ [] := by
  cases h with
  | before => exact List.cons_ne_nil _ _
  | behind => exact List.append_ne_nil_of_left_ne_nil hdigits _
  | inside => exact List.append_ne_nil_of_right_ne_nil _ (List.cons_ne_nil _ _)

end Positional

end Forms

/-! ## The numerals of the code -/

namespace Value

variable {s : Bool} {m : ℕ} {e : ℤ} {x y : Binary64}

/-- The digits of a number have no point among them. -/
theorem point_notMem_toDigits (n : ℕ) : '.' ∉ Nat.toDigits 10 n := fun h =>
  absurd (Nat.isDigit_of_mem_toDigits (by norm_num) le_rfl h) (by decide)

/-- A decimal is written in positional notation. -/
theorem positional_decimalText (d : Decimal) :
    Positional (Nat.toDigits 10 d.coefficient)
      ((Nat.toDigits 10 d.coefficient).length + d.exponent) (numberStyle.decimalText d) :=
  positional_positionalText numberStyle rfl _ _

/-- What is written of a decimal has its value. -/
theorem numeralValue_decimalText (d : Decimal) :
    numeralValue (numberStyle.decimalText d) = d.value := by
  rw [(positional_decimalText d).numeralValue_eq (point_notMem_toDigits _),
    Nat.ofDigitChars_ten_toDigits, Decimal.value]

/-- The magnitude is written by its digits; zero has one digit as well. -/
theorem magnitudeText_finite (hc : Canonical m e) :
    numberStyle.magnitudeText (.finite s m e hc)
      = numberStyle.decimalText (shortestDecimal numberStyle.tie m e hc) := by
  rw [NumberStyle.magnitudeText]
  split
  next hm =>
    rw [shortestDecimal, if_pos hm]
    rfl
  next => rfl

/-- A numeral stands for the number nearest to the fraction that it writes. -/
theorem rounds_magnitudeText (hc : Canonical m e) :
    Rounds (numeralValue (numberStyle.magnitudeText (.finite s m e hc)))
      (.finite false m e hc) := by
  rw [magnitudeText_finite, numeralValue_decimalText]
  exact rounds_shortestDecimal numberStyle.tie hc

/-- A magnitude is written with digits and a point. -/
theorem mem_magnitudeText (hx : x.isFinite) {c : Char} (hc : c ∈ numberStyle.magnitudeText x) :
    c.isDigit ∨ c = '.' := by
  obtain ⟨s, m, e, h, rfl⟩ := exists_of_isFinite hx
  rw [magnitudeText_finite] at hc
  exact (positional_decimalText _).isDigit_or_eq_point
    (fun _ hc => Nat.isDigit_of_mem_toDigits (by norm_num) le_rfl hc) hc

/-- A magnitude is written without a sign. -/
theorem minus_notMem_magnitudeText (hx : x.isFinite) : '-' ∉ numberStyle.magnitudeText x := fun h =>
  absurd (mem_magnitudeText hx h) (by decide)

theorem magnitudeText_ne_nil (hx : x.isFinite) : numberStyle.magnitudeText x ≠ [] := by
  obtain ⟨s, m, e, h, rfl⟩ := exists_of_isFinite hx
  rw [magnitudeText_finite]
  exact (positional_decimalText _).ne_nil Nat.toDigits_ne_nil

/-- A numeral is that of the magnitude, after a minus sign for negative numbers. -/
theorem text_finite (hc : Canonical m e) :
    numberStyle.text (.finite s m e hc)
      = (if s then ['-'] else []) ++ numberStyle.magnitudeText (.finite s m e hc) := by
  cases s <;> rfl

/-- The characters of a numeral. -/
theorem mem_text (hx : x.isFinite) {c : Char} (hc : c ∈ numberStyle.text x) :
    c.isDigit ∨ c = '.' ∨ c = '-' := by
  obtain ⟨s, m, e, h, rfl⟩ := exists_of_isFinite hx
  rw [text_finite, List.mem_append] at hc
  rcases hc with hc | hc
  · split at hc
    · exact .inr (.inr (List.mem_singleton.1 hc))
    · cases hc
  · exact (mem_magnitudeText hx hc).imp_right .inl

theorem text_ne_nil (hx : x.isFinite) : numberStyle.text x ≠ [] := by
  obtain ⟨s, m, e, h, rfl⟩ := exists_of_isFinite hx
  rw [text_finite]
  exact List.append_ne_nil_of_right_ne_nil _ (magnitudeText_ne_nil hx)

/-- Finite numbers with one numeral are one number. -/
theorem text_injective (hx : x.isFinite) (hy : y.isFinite)
    (h : numberStyle.text x = numberStyle.text y) : x = y := by
  obtain ⟨s, m, e, hc, rfl⟩ := exists_of_isFinite hx
  obtain ⟨t, n, f, hd, rfl⟩ := exists_of_isFinite hy
  have hparts : s = t ∧ numberStyle.magnitudeText (.finite s m e hc)
      = numberStyle.magnitudeText (.finite t n f hd) := by
    have hminus := minus_notMem_magnitudeText hx
    have hminus' := minus_notMem_magnitudeText hy
    rw [text_finite, text_finite] at h
    cases s <;> cases t
    · exact ⟨rfl, h⟩
    · have h : numberStyle.magnitudeText (.finite false m e hc) = '-' :: _ := h
      exact absurd (h ▸ List.mem_cons_self) hminus
    · have h : '-' :: _ = numberStyle.magnitudeText (.finite false n f hd) := h
      exact absurd (h ▸ List.mem_cons_self) hminus'
    · exact ⟨rfl, (List.cons.inj h).2⟩
  obtain ⟨rfl, hmagnitude⟩ := hparts
  have hsame := (rounds_magnitudeText (s := s) hc).unique (hmagnitude ▸ rounds_magnitudeText hd)
  obtain ⟨-, rfl, rfl⟩ := Binary64.finite.inj hsame
  rfl

end Value

end Patchbay
