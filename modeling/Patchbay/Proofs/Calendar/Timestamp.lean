import Mathlib.Data.List.Lex
import Patchbay.Proofs.Calendar.Date
import Patchbay.Proofs.Number.Digits

/-!
# Time stamps

A time stamp shows seven numbers, each in decimal digits and followed by a separator
(`Instant.shows_timestamp`).  They are the date and the time of day of its instant, cut to
milliseconds: the date is one of the calendar and counts to the day of the instant, and the
computation of it stays within machine words (`Instant.timestamp_spec`).

Up to the year 9999 all seven have fixed widths.  Digits of one width are in the order of their
numbers (`ofDigitChars_lt`), so texts are in the order of the numbers that they show (`Shows.lt`),
and these are in the order of time.
-/

namespace Patchbay

/-! ## Numbers in digits -/

/-- A number in decimal digits, with zeros in front up to a width and no further. -/
structure IsField (width n : ℕ) (text : List Char) : Prop where
  digits : ∀ c ∈ text, c.isDigit
  value : Nat.ofDigitChars 10 text 0 = n
  width_le : width ≤ text.length
  shortest : width < text.length → 10 ^ (text.length - 1) ≤ n

/-- Numbers are written as fields. -/
theorem isField_paddedDigits {width : ℕ} (hwidth : 0 < width) (n : ℕ) :
    IsField width n (paddedDigits width n) where
  digits c hc := by
    rcases List.mem_append.mp hc with hc | hc
    · rw [List.eq_of_mem_replicate hc]
      decide
    · exact Nat.isDigit_of_mem_toDigits (by norm_num) le_rfl hc
  value := by
    rw [paddedDigits, Nat.ofDigitChars_append, Nat.ofDigitChars_replicate_zero, Nat.mul_zero,
      Nat.ofDigitChars_ten_toDigits]
  width_le := by
    rw [paddedDigits, List.length_append, List.length_replicate]
    omega
  shortest h := by
    have hlength : (paddedDigits width n).length = (Nat.toDigits 10 n).length := by
      rw [paddedDigits, List.length_append, List.length_replicate] at h ⊢
      omega
    rw [hlength] at h ⊢
    by_contra hlt
    have hle := (Nat.length_toDigits_le_iff (by norm_num) (by omega)).mpr (Nat.lt_of_not_le hlt)
    omega

/-- A number that fits into its width is written in it. -/
theorem IsField.length_eq {width n : ℕ} {text : List Char} (h : IsField width n text)
    (hn : n < 10 ^ width) : text.length = width := by
  by_contra hne
  have hlt : width < text.length := Nat.lt_of_le_of_ne h.width_le (Ne.symm hne)
  have hpow : 10 ^ width ≤ 10 ^ (text.length - 1) :=
    Nat.pow_le_pow_right (by norm_num) (by omega)
  have := h.shortest hlt
  omega

/-! ## Texts that show numbers -/

/-- Texts that begin at one length are compared by their beginnings first. -/
theorem lt_or_eq_of_append_lt {front front' behind behind' : List Char}
    (hlength : front.length = front'.length) (hlt : front ++ behind < front' ++ behind') :
    front < front' ∨ front = front' ∧ behind < behind' := by
  induction front generalizing front' with
  | nil =>
    obtain rfl := List.length_eq_zero_iff.mp hlength.symm
    exact .inr ⟨rfl, hlt⟩
  | cons c rest ih =>
    cases front' with
    | nil => exact absurd hlength (by simp)
    | cons c' rest' =>
      rcases List.cons_lt_cons_iff.mp hlt with hfirst | ⟨rfl, hothers⟩
      · exact .inl (List.cons_lt_cons_iff.mpr (.inl hfirst))
      · rcases ih (Nat.succ.inj hlength) hothers with hrest | ⟨rfl, hbehind⟩
        · exact .inl (List.cons_lt_cons_iff.mpr (.inr ⟨rfl, hrest⟩))
        · exact .inr ⟨rfl, hbehind⟩

/-- A text shows numbers by a format, which gives for each its width and the separator after it. -/
inductive Shows : List (ℕ × Char) → List ℕ → List Char → Prop
  | nil : Shows [] [] []
  | cons {width : ℕ} {separator : Char} {format : List (ℕ × Char)} {n : ℕ} {numbers : List ℕ}
      {digits text : List Char} (hdigits : IsField width n digits)
      (htext : Shows format numbers text) :
      Shows ((width, separator) :: format) (n :: numbers) (digits ++ separator :: text)

/-- The numbers fit into the widths of a format. -/
def Fits (format : List (ℕ × Char)) (numbers : List ℕ) : Prop :=
  List.Forall₂ (fun f n => n < 10 ^ f.1) format numbers

/-- Texts of one format are in the order of their numbers. -/
theorem Shows.lt {format : List (ℕ × Char)} {numbers numbers' : List ℕ} {text text' : List Char}
    (h : Shows format numbers text) (h' : Shows format numbers' text')
    (hfits : Fits format numbers) (hfits' : Fits format numbers') (hlt : text < text') :
    numbers < numbers' := by
  induction h generalizing numbers' text' with
  | nil =>
    cases h'
    exact absurd hlt (List.lt_irrefl _)
  | cons hdigits htext ih =>
    cases h' with
    | cons hdigits' htext' =>
      obtain ⟨hn, hnumbers⟩ := List.forall₂_cons.mp hfits
      obtain ⟨hn', hnumbers'⟩ := List.forall₂_cons.mp hfits'
      have hlength := (hdigits.length_eq hn).trans (hdigits'.length_eq hn').symm
      rw [List.cons_lt_cons_iff]
      -- both fields have the width of the format, so the first difference in the texts is in the
      -- first field that differs
      rcases lt_or_eq_of_append_lt hlength hlt with hfirst | ⟨rfl, hbehind⟩
      · refine .inl ?_
        rw [← hdigits.value, ← hdigits'.value]
        exact ofDigitChars_lt hdigits.digits hdigits'.digits hlength hfirst
      · refine .inr ⟨hdigits.value.symm.trans hdigits'.value, ?_⟩
        have hothers := (List.cons_lt_cons_iff.mp hbehind).resolve_left (Char.lt_irrefl _)
        exact ih htext' hnumbers hnumbers' hothers.2

/-! ## Readings -/

/-- A date and a time of day. -/
structure Reading where
  date : Date
  hour : ℕ
  minute : ℕ
  second : ℕ
  millisecond : ℕ

namespace Reading

/-- A date of the calendar and a time of its day. -/
structure IsValid (r : Reading) : Prop where
  date : r.date.IsValid
  hour : r.hour < 24
  minute : r.minute < 60
  second : r.second < 60
  millisecond : r.millisecond < 1000

/-- The seconds from the beginning of 1970. -/
def seconds (r : Reading) : ℕ := ((r.date.dayNumber * 24 + r.hour) * 60 + r.minute) * 60 + r.second

/-- The numbers of a reading, from the year down. -/
def numbers (r : Reading) : List ℕ :=
  [r.date.year, r.date.month, r.date.day, r.hour, r.minute, r.second, r.millisecond]

/-- Readings in the order of their numbers are in the order of time. -/
theorem lt_of_numbers_lt {r r' : Reading} (h : r.IsValid) (h' : r'.IsValid)
    (hlt : r.numbers < r'.numbers) :
    r.seconds < r'.seconds ∨ r.seconds = r'.seconds ∧ r.millisecond < r'.millisecond := by
  obtain ⟨hdate, hhour, hminute, hsecond, -⟩ := h
  obtain ⟨-, hhour', hminute', hsecond', -⟩ := h'
  simp only [numbers, List.cons_lt_cons_iff, List.lt_irrefl, and_false, or_false] at hlt
  unfold seconds
  -- on one day the time of day decides, otherwise the days do
  by_cases hsame : r.date = r'.date
  · rw [hsame] at hlt ⊢
    omega
  · have hday : r.date.dayNumber < r'.date.dayNumber := by
      refine Date.dayNumber_lt hdate ?_
      have hparts : ¬ (r.date.year = r'.date.year ∧ r.date.month = r'.date.month ∧
          r.date.day = r'.date.day) := fun heq => hsame (by
        rcases r with ⟨⟨_, _, _⟩, _⟩
        rcases r' with ⟨⟨_, _, _⟩, _⟩
        simpa using heq)
      omega
    omega

end Reading

/-! ## The time stamp of an instant -/

namespace Instant

/-- The widths and separators of `YYYY-MM-DDThh:mm:ss.mmmZ`. -/
def stampFormat : List (ℕ × Char) :=
  [(4, '-'), (2, '-'), (2, 'T'), (2, ':'), (2, ':'), (2, '.'), (3, 'Z')]

/-- An instant from 1970 on, with seconds of 64 bits and nanoseconds within the second. -/
structure IsTime (t : Instant) : Prop where
  nonneg : 0 ≤ t.seconds
  seconds_lt : t.seconds < 2 ^ 64
  nanoseconds_lt : t.nanoseconds < 10 ^ 9

/-- The day of an instant, from the beginning of 1970. -/
def day (t : Instant) : ℕ := t.sinceEpoch / 86400

/-- What the time stamp of an instant shows. -/
def reading (t : Instant) : Reading where
  date := Date.ofDay t.day
  hour := t.sinceEpoch % 86400 / 3600
  minute := t.sinceEpoch % 86400 % 3600 / 60
  second := t.sinceEpoch % 86400 % 60
  millisecond := t.milliseconds

/-- Seven numbers are shown by their digits between the separators.  It is stated of any numbers, so
that those of an instant need not be computed. -/
theorem shows_fields (year month day hour minute second millisecond : ℕ) :
    Shows stampFormat [year, month, day, hour, minute, second, millisecond]
      (paddedDigits 4 year ++ '-' :: paddedDigits 2 month ++ '-' :: paddedDigits 2 day
        ++ 'T' :: paddedDigits 2 hour ++ ':' :: paddedDigits 2 minute
        ++ ':' :: paddedDigits 2 second ++ '.' :: paddedDigits 3 millisecond ++ ['Z']) := by
  simp only [List.append_assoc, List.cons_append]
  exact .cons (isField_paddedDigits (by norm_num) _) <|
    .cons (isField_paddedDigits (by norm_num) _) <| .cons (isField_paddedDigits (by norm_num) _) <|
    .cons (isField_paddedDigits (by norm_num) _) <| .cons (isField_paddedDigits (by norm_num) _) <|
    .cons (isField_paddedDigits (by norm_num) _) <|
    .cons (isField_paddedDigits (by norm_num) _) .nil

/-- The text of an instant shows its reading. -/
theorem shows_timestamp (t : Instant) :
    Shows stampFormat t.reading.numbers t.timestamp.toList := by
  rw [timestamp, String.toList_ofList]
  exact shows_fields _ _ _ _ _ _ _

variable {t u : Instant}

/-- The reading of an instant is a date of the calendar and a time of its day. -/
theorem isValid_reading (ht : t.IsTime) : t.reading.IsValid where
  date := (Date.ofDay_spec _).1
  hour := by
    show t.sinceEpoch % 86400 / 3600 < 24
    omega
  minute := by
    show t.sinceEpoch % 86400 % 3600 / 60 < 60
    omega
  second := by
    show t.sinceEpoch % 86400 % 60 < 60
    omega
  millisecond := by
    have := ht.nanoseconds_lt
    show t.milliseconds < 1000
    unfold milliseconds
    split <;> omega

/-- The reading of an instant counts to its seconds. -/
theorem seconds_reading (t : Instant) : t.reading.seconds = t.sinceEpoch := by
  unfold Reading.seconds reading
  dsimp only
  rw [(Date.ofDay_spec _).2, day]
  omega

/-- An instant is not after another. -/
def NotAfter (t u : Instant) : Prop :=
  t.seconds < u.seconds ∨ t.seconds = u.seconds ∧ t.nanoseconds ≤ u.nanoseconds

/-- The numbers of a reading fit into their widths up to the year 9999. -/
theorem fits_reading (ht : t.IsTime) (hyear : t.reading.date.year ≤ 9999) :
    Fits stampFormat t.reading.numbers := by
  obtain ⟨hdate, hhour, hminute, hsecond, hmillisecond⟩ := isValid_reading ht
  have hmonth := hdate.month
  have hday := hdate.day
  -- a day of a month has two digits
  have hlength : Toml.daysOf t.reading.date.year t.reading.date.month ≤ 31 := by
    unfold Toml.daysOf
    split
    · split <;> omega
    · split <;> omega
  simp only [Fits, stampFormat, Reading.numbers, List.forall₂_cons, List.Forall₂.nil, and_true]
  omega

/-- What a time stamp says of its instant: a date of the calendar that counts to the day, found
without leaving the machine words, and a time of that day. -/
structure Stamped (t : Instant) (r : Reading) : Prop where
  valid : r.IsValid
  day : r.date.dayNumber = t.day
  seconds : (r.seconds : ℤ) = t.seconds
  millisecond : r.millisecond = t.nanoseconds / 1000000
  words : Date.ofDayInWords? t.day = some r.date
  shown : Shows stampFormat r.numbers t.timestamp.toList

/-- A time stamp says of its instant what its reading says. -/
theorem stamped_reading (ht : t.IsTime) : Stamped t t.reading where
  valid := isValid_reading ht
  day := (Date.ofDay_spec _).2
  seconds := by
    rw [seconds_reading]
    exact Int.toNat_of_nonneg ht.nonneg
  millisecond := if_neg (Int.not_lt.mpr ht.nonneg)
  words := by
    refine Date.ofDayInWords?_eq ?_
    have := ht.nonneg
    have := ht.seconds_lt
    unfold day sinceEpoch
    omega
  shown := shows_timestamp t

/-- **Time stamps.**  The time stamp of an instant shows its date and time of day to milliseconds;
different days have different dates; and up to the year 9999 a later instant never has the text
that comes first. -/
theorem timestamp_spec (ht : t.IsTime) (hu : u.IsTime) :
    Stamped t t.reading ∧
      (t.day ≠ u.day → t.reading.date ≠ u.reading.date) ∧
      (t.NotAfter u → t.reading.date.year ≤ 9999 → u.reading.date.year ≤ 9999 →
        ¬ u.timestamp < t.timestamp) := by
  refine ⟨stamped_reading ht, fun hne heq => hne (Date.ofDay_injective heq), ?_⟩
  intro horder hyear hyear' hlt
  have hnumbers : u.reading.numbers < t.reading.numbers :=
    (shows_timestamp u).lt (shows_timestamp t) (fits_reading hu hyear') (fits_reading ht hyear)
      (String.lt_iff.mp hlt)
  have htime := Reading.lt_of_numbers_lt (isValid_reading hu) (isValid_reading ht) hnumbers
  have hseconds := (stamped_reading ht).seconds
  have hseconds' := (stamped_reading hu).seconds
  rw [(stamped_reading ht).millisecond, (stamped_reading hu).millisecond] at htime
  unfold NotAfter at horder
  omega

/-- A moment of the leap day of 2000. -/
def leapMoment : Instant := ⟨951782400, 123456789⟩

/-- The last second of a day. -/
def lateMoment : Instant := ⟨1792108799, 0⟩

/-- A leap day, cut to milliseconds, and the last second of a later day. -/
theorem timestamp_spec_leapMoment :
    leapMoment.IsTime ∧ lateMoment.IsTime ∧ leapMoment.NotAfter lateMoment ∧
      leapMoment.timestamp = "2000-02-29T00:00:00.123Z" ∧
      lateMoment.timestamp = "2026-10-15T23:59:59.000Z" ∧
      Stamped leapMoment leapMoment.reading ∧ ¬ lateMoment.timestamp < leapMoment.timestamp := by
  have hleap : leapMoment.IsTime := ⟨by decide, by decide, by decide⟩
  have hlate : lateMoment.IsTime := ⟨by decide, by decide, by decide⟩
  have horder : leapMoment.NotAfter lateMoment := .inl (by decide)
  obtain ⟨hstamped, -, hnot⟩ := timestamp_spec hleap hlate
  exact ⟨hleap, hlate, horder, by decide +kernel, by decide +kernel, hstamped,
    hnot horder (by decide) (by decide)⟩

end Instant

end Patchbay
