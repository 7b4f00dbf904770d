import Patchbay.Proofs.Number.Digits
import Patchbay.Proofs.Number.Numeral
import Patchbay.Toml.Scalar

/-!
# Numbers read back

Every number, of either sign and finite or not, is written as a value that reads as the number
(`scalar?_writeNumber`).

A finite number is written as digits with a point between two of them (`Pointed`), which write a
fraction to which the number is nearest; the reader takes the number nearest to the fraction.  Dates
and times, which are tried before, have no point where a number has one.
-/

namespace Patchbay

open Binary64

variable {m : ℕ} {e : ℤ} {hc : Canonical m e}

/-! ## Decimals that are read -/

namespace Binary64

/-- The sign takes no part in rounding. -/
theorem ofRatio_sign {num den : ℕ} (negative : Bool)
    (h : ofRatio false num den = .finite false m e hc) :
    ofRatio negative num den = .finite negative m e hc := by
  have hpack {n : ℕ} {f : ℤ} (h : pack false n f = .finite false m e hc) :
      pack negative n f = .finite negative m e hc := by
    obtain ⟨-, rfl, rfl⟩ := pack_eq_finite h
    exact dif_pos hc
  -- zero is a case of its own, as it is not packed
  rcases Nat.eq_zero_or_pos num with rfl | hnum
  · obtain ⟨-, rfl, rfl⟩ := Binary64.finite.inj h
    rfl
  · rw [ofRatio_eq_pack _ hnum] at h ⊢
    split at h
    next hsmall =>
      rw [if_pos hsmall]
      exact hpack h
    next hlarge =>
      rw [if_neg hlarge]
      exact hpack h

/-- A fraction that does not round to zero is at least half of the least positive number. -/
theorem Rounds.pow_le {q : ℚ} (hm : m ≠ 0) (h : Rounds q (.finite false m e hc)) :
    (2 : ℚ) ^ (-1075 : ℤ) ≤ q := by
  obtain ⟨num, den, hden, rfl, hround⟩ := h
  have hdistance := (abs_le.mp (abs_sub_le_of_ofRatio hden hround)).1
  have hone : (1 : ℚ) ≤ m := by exact_mod_cast Nat.one_le_iff_ne_zero.mpr hm
  have hunit : (2 : ℚ) ^ (-1074 : ℤ) ≤ 2 ^ e := zpow_le_zpow_right₀ one_le_two hc.2.1
  have hhalf : (2 : ℚ) ^ (-1075 : ℤ) = 2 ^ (-1074 : ℤ) / 2 := by
    rw [div_eq_mul_inv, ← zpow_sub_one₀ two_ne_zero]
    rfl
  have hpoint : (2 : ℚ) ^ e ≤ m * 2 ^ e := le_mul_of_one_le_left (by positivity) hone
  linarith

end Binary64

/-- A decimal that rounds to no zero is none. -/
theorem Decimal.coefficient_ne_zero {d : Decimal} (hm : m ≠ 0)
    (h : Rounds d.value (.finite false m e hc)) : d.coefficient ≠ 0 := by
  intro hzero
  have hlarge := h.pow_le hm
  rw [value, hzero, Nat.cast_zero, zero_mul] at hlarge
  exact absurd hlarge (not_le.mpr (by positivity))

/-- A decimal to which a number is nearest reads as the number. -/
theorem Decimal.toBinary64_of_rounds {d : Decimal} (negative : Bool) (hexponent : d.exponent ≤ 400)
    (hm : m ≠ 0) (h : Rounds d.value (.finite false m e hc)) :
    d.toBinary64 negative = .finite negative m e hc := by
  have hlarge := h.pow_le hm
  -- what is below the cut reads as zero without a division, and this decimal is far above it
  have hcut : ¬ d.exponent < -400 - (Nat.log2 d.coefficient : ℤ) := by
    intro hsmall
    have hlog : (d.coefficient : ℚ) < 10 ^ ((Nat.log2 d.coefficient : ℤ) + 1) := by
      have htwo : (d.coefficient : ℚ) < 2 ^ (Nat.log2 d.coefficient + 1) := by
        exact_mod_cast Nat.lt_log2_self
      refine htwo.trans_le ?_
      rw [← zpow_natCast, Nat.cast_succ]
      exact zpow_le_zpow_left₀ (by omega) (by norm_num) (by norm_num)
    have hpower : (10 : ℚ) ^ d.exponent ≤ 10 ^ (-401 - (Nat.log2 d.coefficient : ℤ)) :=
      zpow_le_zpow_right₀ (by norm_num) (by omega)
    have hlt : d.value < 10 ^ (-400 : ℤ) := by
      calc d.value < 10 ^ ((Nat.log2 d.coefficient : ℤ) + 1) * 10 ^ d.exponent := by
            rw [value]
            gcongr
        _ ≤ 10 ^ ((Nat.log2 d.coefficient : ℤ) + 1)
              * 10 ^ (-401 - (Nat.log2 d.coefficient : ℤ)) := by
            gcongr
        _ = 10 ^ (-400 : ℤ) := by
            rw [← zpow_add₀ (by norm_num)]
            congr 1
            omega
    have hleast : (10 : ℚ) ^ (-400 : ℤ) ≤ 2 ^ (-1075 : ℤ) := by
      rw [zpow_neg, zpow_neg]
      refine inv_anti₀ (by positivity) ?_
      calc (2 : ℚ) ^ (1075 : ℤ) ≤ 2 ^ (3 * 400 : ℤ) := zpow_le_zpow_right₀ one_le_two (by norm_num)
        _ = (2 ^ (3 : ℤ)) ^ (400 : ℤ) := zpow_mul 2 3 400
        _ ≤ 10 ^ (400 : ℤ) := zpow_le_zpow_left₀ (by norm_num) (by positivity) (by norm_num)
    linarith
  unfold toBinary64
  rw [if_neg (coefficient_ne_zero hm h), if_neg (by omega), if_neg hcut]
  obtain ⟨num, den, hden, hq, hround⟩ := h
  refine ofRatio_sign negative (Eq.trans ?_ hround)
  refine ofRatio_congr false (powerDen_pos (by norm_num) _) hden ?_
  rw [d.div_eq_value, hq]

namespace Toml

variable {whole fraction digits : List Char}

/-! ## Digits -/

/-- The digits of the reader are the usual ones. -/
theorem isDecimal_eq_isDigit (c : Char) : isDecimal c = c.isDigit := by
  simp [isDecimal, Char.isDigit, Char.le_def]

/-- A digit has the value that the library gives it. -/
theorem digitValue_of_isDigit {c : Char} (h : c.isDigit) : digitValue c = c.toNat - '0'.toNat :=
  if_pos ((isDecimal_eq_isDigit c).trans h)

theorem isDigitOf_ten {c : Char} (h : c.isDigit) : isDigitOf 10 c := by
  have hvalue := digitValue_of_isDigit h
  have hbounds := toNat_of_isDigit h
  have hzero : '0'.toNat = 48 := rfl
  simp only [isDigitOf, isDecimal_eq_isDigit, h, Bool.true_or, Bool.true_and, decide_eq_true_eq]
  omega

/-- The digits of a numeral have the value that the library reads. -/
theorem digitsValue_map (h : ∀ c ∈ digits, c.isDigit) :
    digitsValue 10 (digits.map digitValue) = Nat.ofDigitChars 10 digits 0 := by
  rw [digitsValue, List.foldl_map, Nat.ofDigitChars]
  refine List.foldl_ext _ _ 0 fun n c hc => ?_
  rw [digitValue_of_isDigit (h c hc)]

/-- Digits are read up to a character that is none and no underscore. -/
theorem moreDigits?_append {c : Char} (h : ∀ c ∈ digits, c.isDigit)
    (hc : isDigitOf 10 c = false) (hunderscore : c ≠ '_') (rest : List Char) :
    moreDigits? 10 (digits ++ c :: rest) = some (digits.map digitValue, c :: rest) := by
  induction digits with
  | nil => simp [moreDigits?, hc, hunderscore]
  | cons d digits ih =>
    obtain ⟨hd, hdigits⟩ := List.forall_mem_cons.mp h
    have hne : d ≠ '_' := by
      rintro rfl
      exact absurd hd (by decide)
    simp [moreDigits?, isDigitOf_ten hd, hne, ih hdigits]

/-- A numeral is read up to a character that is no digit and no underscore. -/
theorem digits?_append {c : Char} (h : ∀ c ∈ digits, c.isDigit) (hne : digits ≠ [])
    (hc : isDigitOf 10 c = false) (hunderscore : c ≠ '_') (rest : List Char) :
    digits? 10 (digits ++ c :: rest) = some (digits.map digitValue, c :: rest) := by
  cases digits with
  | nil => exact absurd rfl hne
  | cons d digits =>
    obtain ⟨hd, hdigits⟩ := List.forall_mem_cons.mp h
    simp [digits?, isDigitOf_ten hd, moreDigits?_append hdigits hc hunderscore]

/-! ## Digits with a point -/

/-- Digits on both sides of a point, with no zero in front of other digits. -/
structure Pointed (whole fraction : List Char) : Prop where
  whole_digits : ∀ c ∈ whole, c.isDigit
  fraction_digits : ∀ c ∈ fraction, c.isDigit
  fraction_ne_nil : fraction ≠ []
  leading : whole = ['0'] ∨ whole ≠ [] ∧ whole.head? ≠ some '0'

theorem isDigit_of_mem_zeros {count : ℤ} {c : Char} (h : c ∈ NumberStyle.zeros count) :
    c.isDigit := by
  rw [List.eq_of_mem_replicate h]
  decide

/-- Positional notation has a point, and keeps the fraction. -/
theorem exists_pointed (hdigits : ∀ c ∈ digits, c.isDigit) (hne : digits ≠ [])
    (hzero : digits.head? ≠ some '0') (e : ℤ) :
    ∃ whole fraction, numberStyle.positionalText digits (digits.length + e)
        = whole ++ '.' :: fraction ∧ Pointed whole fraction ∧
      numeralValue (whole ++ '.' :: fraction) = Nat.ofDigitChars 10 digits 0 * 10 ^ e := by
  have hpoint : '.' ∉ digits := fun h => absurd (hdigits _ h) (by decide)
  unfold NumberStyle.positionalText
  -- the point comes before all digits, behind all of them, or between two
  split_ifs with hbefore hbehind hstyle
  · refine ⟨['0'], _, rfl, ⟨by simp, fun c hc => ?_, ?_, .inl rfl⟩, ?_⟩
    · exact (List.mem_append.mp hc).elim isDigit_of_mem_zeros (hdigits c)
    · exact List.append_ne_nil_of_right_ne_nil _ hne
    · exact (Positional.before hbefore).numeralValue_eq hpoint
  · have hwhole := (Positional.behind hbehind).numeralValue_eq hpoint
    refine ⟨digits ++ NumberStyle.zeros (digits.length + e - digits.length), ['0'], rfl,
      ⟨fun c hc => ?_, by simp, by decide, .inr ⟨?_, ?_⟩⟩, ?_⟩
    · exact (List.mem_append.mp hc).elim (hdigits c) isDigit_of_mem_zeros
    · exact List.append_ne_nil_of_left_ne_nil hne _
    · rwa [List.head?_append_of_ne_nil _ hne]
    · have hwholePoint := List.not_mem_append hpoint
        (point_notMem_zeros (digits.length + e - digits.length))
      have hten : Nat.ofDigitChars 10 ['0']
          (Nat.ofDigitChars 10 (digits ++ NumberStyle.zeros (digits.length + e - digits.length)) 0)
            = 10 * Nat.ofDigitChars 10
                (digits ++ NumberStyle.zeros (digits.length + e - digits.length)) 0 := rfl
      rw [numeralValue_whole hwholePoint] at hwhole
      rw [numeralValue_point hwholePoint (by decide), Nat.ofDigitChars_append, hten, Nat.cast_mul,
        hwhole]
      norm_num
  · exact absurd rfl hstyle
  · have hpos : 0 < digits.length + e := by omega
    have hlt : digits.length + e < digits.length := by omega
    refine ⟨digits.take (digits.length + e).toNat, digits.drop (digits.length + e).toNat, rfl,
      ⟨fun c hc => hdigits c (List.mem_of_mem_take hc),
        fun c hc => hdigits c (List.mem_of_mem_drop hc), ?_, .inr ⟨?_, ?_⟩⟩,
      (Positional.inside hpos hlt).numeralValue_eq hpoint⟩
    · rw [Ne, List.drop_eq_nil_iff]
      omega
    · rw [Ne, List.take_eq_nil_iff, not_or]
      exact ⟨by omega, hne⟩
    · rwa [List.head?_take, if_neg (by omega)]

/-! ## Reading numbers -/

/-- The number nearest to what the digits say is the number that is read. -/
theorem number?_of_rounds (h : Pointed whole fraction) (negative : Bool) (hm : m ≠ 0)
    (hvalue : Rounds (numeralValue (whole ++ '.' :: fraction)) (.finite false m e hc)) :
    number? negative (whole.map digitValue) (fraction.map digitValue) 0
      = some (.number (.finite negative m e hc)) := by
  have hwhole : '.' ∉ whole := fun hmem => absurd (h.whole_digits _ hmem) (by decide)
  have hfraction : '.' ∉ fraction := fun hmem => absurd (h.fraction_digits _ hmem) (by decide)
  have hdigits : ∀ c ∈ whole ++ fraction, c.isDigit := fun c hc =>
    (List.mem_append.mp hc).elim (h.whole_digits c) (h.fraction_digits c)
  have hread : Decimal.toBinary64 negative ⟨Nat.ofDigitChars 10 (whole ++ fraction) 0,
      0 - fraction.length⟩ = .finite negative m e hc := by
    have hexponent : (0 : ℤ) - fraction.length ≤ 400 := by omega
    refine Decimal.toBinary64_of_rounds negative hexponent hm ?_
    rw [numeralValue_point hwhole hfraction] at hvalue
    rw [Decimal.value, zero_sub, zpow_neg, zpow_natCast, ← div_eq_mul_inv]
    exact hvalue
  simp only [number?, ← List.map_append, digitsValue_map hdigits, List.length_map]
  rw [hread]
  exact if_neg (by simp)

/-- A number with a point is read up to the end of its line. -/
theorem decimal?_pointed (h : Pointed whole fraction) (negative : Bool) (rest : List Char) :
    decimal? negative (whole ++ '.' :: (fraction ++ '\n' :: rest))
      = (number? negative (whole.map digitValue) (fraction.map digitValue) 0).map
          (·, '\n' :: rest) := by
  have hwhole : wholeDigits? (whole ++ '.' :: (fraction ++ '\n' :: rest))
      = some (whole.map digitValue, '.' :: (fraction ++ '\n' :: rest)) := by
    rcases h.leading with rfl | ⟨hne, hzero⟩
    · rfl
    · rw [wholeDigits?]
      · exact digits?_append h.whole_digits hne (by decide) (by decide) _
      · intro t heq
        cases whole with
        | nil => exact hne rfl
        | cons c whole => exact hzero (by rw [(List.cons.inj heq).1]; rfl)
  have hfraction : fraction? ('.' :: (fraction ++ '\n' :: rest))
      = some (some (fraction.map digitValue), '\n' :: rest) := by
    rw [fraction?, digits?_append h.fraction_digits h.fraction_ne_nil (by decide) (by decide),
      Option.map_some]
  have hexponent : exponent? ('\n' :: rest) = some (none, '\n' :: rest) := by
    simp [exponent?]
  simp only [decimal?, hwhole, hfraction, hexponent, Option.bind_eq_bind, Option.bind_some,
    Option.isNone_some, Bool.false_and, Option.getD_some, Option.getD_none]
  cases number? negative (whole.map digitValue) (fraction.map digitValue) 0 <;> rfl

/-- There is a digit before the point, and if it is zero it is alone. -/
theorem Pointed.exists_whole_eq (h : Pointed whole fraction) :
    ∃ c others, whole = c :: others ∧ c.isDigit ∧ (c = '0' → others = []) := by
  rcases h.leading with rfl | ⟨hne, hzero⟩
  · exact ⟨'0', [], rfl, by decide, fun _ => rfl⟩
  · obtain ⟨c, others, rfl⟩ := List.exists_cons_of_ne_nil hne
    refine ⟨c, others, rfl, h.whole_digits c List.mem_cons_self, fun h => ?_⟩
    exact absurd (by rw [h]; rfl) hzero

/-- No number with a point is one of the words for infinity or no number. -/
theorem unsigned?_pointed (h : Pointed whole fraction) (negative : Bool) (t : List Char) :
    unsigned? negative (whole ++ t) = decimal? negative (whole ++ t) := by
  obtain ⟨c, others, rfl, hc, -⟩ := h.exists_whole_eq
  rw [unsigned?]
  all_goals
    intro t' heq
    obtain ⟨rfl, -⟩ := List.cons.inj heq
    exact absurd hc (by decide)

/-- A number with a point, and a minus sign in front of negative ones. -/
theorem numeral?_pointed (h : Pointed whole fraction) (negative : Bool) (rest : List Char) :
    numeral? ((if negative then ['-'] else []) ++ (whole ++ '.' :: (fraction ++ '\n' :: rest)))
      = (number? negative (whole.map digitValue) (fraction.map digitValue) 0).map
          (·, '\n' :: rest) := by
  rw [← decimal?_pointed h, ← unsigned?_pointed h]
  cases negative with
  | true => rfl
  | false =>
    obtain ⟨c, others, rfl, hc, hothers⟩ := h.exists_whole_eq
    have hsign (t : List Char) : takeSign (c :: t) = (false, c :: t) := by
      rw [takeSign]
      all_goals
        intro t' heq
        obtain ⟨rfl, -⟩ := List.cons.inj heq
        exact absurd hc (by decide)
    -- a zero in front is followed by the point, so no letter of another base comes there
    rw [if_neg Bool.false_ne_true, List.nil_append, numeral?]
    · rw [List.cons_append, hsign]
    all_goals
      intro t' heq
      obtain ⟨rfl, hbehind⟩ := List.cons.inj heq
      rw [hothers rfl] at hbehind
      exact absurd (List.cons.inj hbehind).1 (by decide)

/-! ## Dates and times are told from numbers -/

/-- Digits that are read of a text with a point come before the point. -/
theorem fixedDigits?_point {count n : ℕ} {t s : List Char}
    (h : fixedDigits? count (whole ++ '.' :: t) = some (n, s)) :
    s = whole.drop count ++ '.' :: t := by
  simp only [fixedDigits?] at h
  split_ifs at h with hdigits
  obtain ⟨hlength, hall⟩ := hdigits
  obtain ⟨-, rfl⟩ := Prod.mk.inj (Option.some.inj h)
  refine List.drop_append_of_le_length ?_
  by_contra hlt
  have hpoint : '.' ∈ (whole ++ '.' :: t).take count := by
    obtain ⟨k, hk⟩ := Nat.exists_eq_add_of_lt (Nat.lt_of_not_le hlt)
    rw [hk, Nat.add_assoc, List.take_length_add_append]
    exact List.mem_append_right _ List.mem_cons_self
  exact absurd (List.all_eq_true.mp hall _ hpoint) (by decide)

/-- Neither digits nor a point are any other character. -/
theorem skip?_point {c : Char} (hwhole : ∀ c ∈ whole, c.isDigit) (hc : c.isDigit = false)
    (hpoint : c ≠ '.') (t : List Char) : skip? c (whole ++ '.' :: t) = none := by
  cases whole with
  | nil => exact if_neg hpoint.symm
  | cons d whole =>
    refine if_neg ?_
    rintro rfl
    exact absurd (hwhole d List.mem_cons_self) (by simp [hc])

/-- A number with a point is no date and no time. -/
theorem moment?_point (hwhole : ∀ c ∈ whole, c.isDigit) (t : List Char) :
    moment? (whole ++ '.' :: t) = none := by
  have hskip (count : ℕ) {c : Char} (hc : c.isDigit = false) (hpoint : c ≠ '.') :
      skip? c (whole.drop count ++ '.' :: t) = none :=
    skip?_point (fun c hc => hwhole c (List.mem_of_mem_drop hc)) hc hpoint t
  -- a date needs a minus sign and a time a colon where the digits or the point come
  have hdate : date? (whole ++ '.' :: t) = none := by
    rw [date?, Option.bind_eq_bind, Option.bind_eq_none_iff]
    rintro ⟨year, s⟩ hyear
    simp [fixedDigits?_point hyear, hskip]
  have htime : time? (whole ++ '.' :: t) = none := by
    rw [time?, Option.bind_eq_bind, Option.bind_eq_none_iff]
    rintro ⟨hour, s⟩ hhour
    obtain ⟨⟨n, s'⟩, hread, hbounds⟩ := Option.bind_eq_some_iff.mp hhour
    dsimp only at hbounds
    split_ifs at hbounds
    obtain ⟨-, rfl⟩ := Prod.mk.inj (Option.some.inj hbounds)
    simp [fixedDigits?_point hread, hskip]
  simp [moment?, dateAndTime?, hdate, htime]

/-- Nor is anything that does not begin with a digit. -/
theorem moment?_of_not_decimal {c : Char} (hc : isDecimal c = false) (t : List Char) :
    moment? (c :: t) = none := by
  have hdigits (count : ℕ) : fixedDigits? (count + 1) (c :: t) = none := by
    simp [fixedDigits?, hc]
  simp [moment?, dateAndTime?, date?, time?, twoDigits?, hdigits]

/-! ## Numbers -/

/-- A magnitude is written with a point, and its digits read as the number. -/
theorem exists_magnitudeText_eq (negative : Bool) (hc : Canonical m e) :
    ∃ whole fraction, numberStyle.magnitudeText (.finite negative m e hc)
        = whole ++ '.' :: fraction ∧ Pointed whole fraction ∧
      number? negative (whole.map digitValue) (fraction.map digitValue) 0
        = some (.number (.finite negative m e hc)) := by
  -- zero is written without looking for digits
  rcases eq_or_ne m 0 with rfl | hm
  · obtain rfl : e = -1074 := hc.2.2.2.resolve_left (by decide)
    refine ⟨['0'], ['0'], rfl, ⟨by simp, by simp, by decide, .inl rfl⟩, ?_⟩
    cases negative <;> rfl
  · have hrounds := rounds_shortestDecimal numberStyle.tie hc
    have hpos := Nat.pos_of_ne_zero (Decimal.coefficient_ne_zero hm hrounds)
    obtain ⟨whole, fraction, htext, hpointed, hvalue⟩ := exists_pointed
      (fun c hc => Nat.isDigit_of_mem_toDigits (by norm_num) le_rfl hc) Nat.toDigits_ne_nil
      (head?_toDigits_ne_zero hpos) (shortestDecimal numberStyle.tie m e hc).exponent
    refine ⟨whole, fraction, ?_, hpointed, number?_of_rounds hpointed negative hm ?_⟩
    · rw [NumberStyle.magnitudeText, if_neg hm]
      exact htext
    · rw [hvalue, Nat.ofDigitChars_ten_toDigits]
      exact hrounds

/-- A finite number is written as its sign and its magnitude. -/
theorem writeNumber_finite (negative : Bool) (hc : Canonical m e) :
    writeNumber (.finite negative m e hc) = (if negative then ['-'] else [])
      ++ numberStyle.magnitudeText (.finite negative m e hc) := by
  cases negative <;> rfl

/-- A character that may begin a number. -/
def beginsNumber (c : Char) : Bool := c.isDigit || ['-', 'i', 'n'].contains c

/-- A number begins with a digit, a minus sign or the letter of a word. -/
theorem exists_writeNumber_eq (x : Binary64) :
    ∃ c others, writeNumber x = c :: others ∧ beginsNumber c := by
  match x with
  | .nan => exact ⟨'n', _, rfl, rfl⟩
  | .infinite false => exact ⟨'i', _, rfl, rfl⟩
  | .infinite true => exact ⟨'-', _, rfl, rfl⟩
  | .finite true m e hc => exact ⟨'-', _, rfl, rfl⟩
  | .finite false m e hc =>
    obtain ⟨whole, fraction, htext, hpointed, -⟩ := exists_magnitudeText_eq false hc
    obtain ⟨c, others, rfl, hdigit, -⟩ := hpointed.exists_whole_eq
    refine ⟨c, others ++ '.' :: fraction, ?_, by rw [beginsNumber, hdigit, Bool.true_or]⟩
    rw [writeNumber_finite, htext]
    rfl

/-- **Numbers read back.**  A number that is written as a value is read again, up to the end of its
line. -/
theorem scalar?_writeNumber (x : Binary64) (rest : List Char) :
    scalar? (writeNumber x ++ '\n' :: rest) = some (.number x, '\n' :: rest) := by
  match x with
  | .nan =>
    have hmoment := moment?_of_not_decimal (c := 'n') rfl ('a' :: 'n' :: '\n' :: rest)
    exact (congrArg (Option.orElse · _) hmoment).trans rfl
  | .infinite false =>
    have hmoment := moment?_of_not_decimal (c := 'i') rfl ('n' :: 'f' :: '\n' :: rest)
    exact (congrArg (Option.orElse · _) hmoment).trans rfl
  | .infinite true =>
    have hmoment := moment?_of_not_decimal (c := '-') rfl ('i' :: 'n' :: 'f' :: '\n' :: rest)
    exact (congrArg (Option.orElse · _) hmoment).trans rfl
  | .finite negative m e hc =>
    obtain ⟨whole, fraction, htext, hpointed, hread⟩ := exists_magnitudeText_eq negative hc
    have hwrite : writeNumber (.finite negative m e hc) ++ '\n' :: rest
        = (if negative then ['-'] else []) ++ (whole ++ '.' :: (fraction ++ '\n' :: rest)) := by
      rw [writeNumber_finite, htext]
      simp only [List.append_assoc, List.cons_append]
    have hmoment : moment? ((if negative then ['-'] else []) ++
        (whole ++ '.' :: (fraction ++ '\n' :: rest))) = none := by
      cases negative with
      | false => exact moment?_point hpointed.whole_digits _
      | true => exact moment?_of_not_decimal rfl _
    rw [hwrite, scalar?, hmoment, Option.orElse_none, numeral?_pointed hpointed, hread,
      Option.map_some]

end Toml

end Patchbay
