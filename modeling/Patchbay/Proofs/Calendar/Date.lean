import Mathlib.Data.Nat.Digits.Defs
import Mathlib.Tactic.IntervalCases
import Patchbay.Calendar
import Patchbay.Toml.Scalar

/-!
# The calendar

A day is turned into a date by a chain of divisions.  Here the calendar is counted instead: the
number of a date (`Date.dayNumber`) is the sum of the years since 1970 before it, of the months of
its year before it and of the days of its month before it, with leap years by the rule of 4, 100
and 400.  `Date.ofDay` gives a date that exists and has the number of the day
(`Date.ofDay_spec`).

## Shape of the proof

* `EraDay.yearOfEra_day`: a day of an era is split into centuries, cycles of four years, years and
  days (`EraDay.exists_day_eq`); the divisions find the year of that split.
* `exists_ofDay_eq`: so a day has a place in a year that begins in March, and `yearStart_march`
  counts the days before that year.
* `dayNumber_lt`: a date that comes first by year, month and day has the smaller number.
* `ofDayInWords?_eq`: the same divisions in machine words, where every result is checked.
-/

namespace Patchbay

namespace Date

open Toml (isLeap daysOf)

/-! ## The calendar, counted -/

/-- The days of a year. -/
def daysOfYear (year : ℕ) : ℕ := ((List.range' 1 12).map (daysOf year)).sum

/-- The days from the beginning of 1970 to that of a year. -/
def yearStart (year : ℕ) : ℕ := ((List.range' 1970 (year - 1970)).map daysOfYear).sum

/-- The days of a year before a month. -/
def monthStart (year month : ℕ) : ℕ := ((List.range' 1 (month - 1)).map (daysOf year)).sum

/-- The days from the beginning of 1970 to a date, year by year and month by month. -/
def dayNumber (d : Date) : ℕ := yearStart d.year + monthStart d.year d.month + (d.day - 1)

/-- A date of the calendar from 1970 on. -/
structure IsValid (d : Date) : Prop where
  year : 1970 ≤ d.year
  month : 1 ≤ d.month ∧ d.month ≤ 12
  day : 1 ≤ d.day ∧ d.day ≤ daysOf d.year d.month

/-- The leap day of a year, if it has one. -/
def leapDays (year : ℕ) : ℕ := if isLeap year then 1 else 0

/-- Every fourth year is a leap year, but of the centuries only every fourth. -/
theorem isLeap_iff {year : ℕ} :
    isLeap year ↔ year % 4 = 0 ∧ (year % 100 ≠ 0 ∨ year % 400 = 0) := by
  simp [isLeap]

/-- The leap days of a year, by its divisors. -/
theorem leapDays_eq (year : ℕ) :
    leapDays year = if year % 4 = 0 ∧ (year % 100 ≠ 0 ∨ year % 400 = 0) then 1 else 0 :=
  if_congr isLeap_iff rfl rfl

theorem leapDays_le (year : ℕ) : leapDays year ≤ 1 := by
  unfold leapDays
  split <;> omega

/-- February takes the leap day. -/
theorem daysOf_february (year : ℕ) : daysOf year 2 = 28 + leapDays year := by
  unfold leapDays
  cases h : isLeap year <;> simp [daysOf, h]

/-- A year begins where the one before it ends. -/
theorem yearStart_succ {year : ℕ} (h : 1970 ≤ year) :
    yearStart (year + 1) = yearStart year + daysOfYear year := by
  obtain ⟨years, rfl⟩ := Nat.exists_eq_add_of_le h
  have hcount : 1970 + years + 1 - 1970 = years + 1 := by omega
  rw [yearStart, hcount, List.range'_1_concat, List.map_append, List.sum_append,
    List.map_singleton, List.sum_singleton, yearStart, Nat.add_sub_cancel_left]

/-- A month begins where the one before it ends. -/
theorem monthStart_succ {year month : ℕ} (h : 1 ≤ month) :
    monthStart year (month + 1) = monthStart year month + daysOf year month := by
  obtain ⟨months, rfl⟩ := Nat.exists_eq_add_of_le h
  rw [monthStart, Nat.add_sub_cancel, Nat.add_comm 1 months, List.range'_1_concat, List.map_append,
    List.sum_append, List.map_singleton, List.sum_singleton, monthStart, Nat.add_sub_cancel,
    Nat.add_comm months 1]

theorem yearStart_mono {year later : ℕ} (hyear : 1970 ≤ year) (h : year ≤ later) :
    yearStart year ≤ yearStart later := by
  induction later, h using Nat.le_induction with
  | base => exact le_rfl
  | succ later hle ih =>
    rw [yearStart_succ (hyear.trans hle)]
    omega

theorem monthStart_mono {year month later : ℕ} (hmonth : 1 ≤ month) (h : month ≤ later) :
    monthStart year month ≤ monthStart year later := by
  induction later, h using Nat.le_induction with
  | base => exact le_rfl
  | succ later hle ih =>
    rw [monthStart_succ (hmonth.trans hle)]
    omega

/-- A year ends with its last month. -/
theorem monthStart_end (year : ℕ) : monthStart year 13 = daysOfYear year := rfl

section Order

variable {d d' : Date}

/-- A date comes before the end of its month. -/
theorem IsValid.dayNumber_lt_monthStart (h : d.IsValid) :
    d.dayNumber < yearStart d.year + monthStart d.year (d.month + 1) := by
  have hday := h.day
  rw [dayNumber, monthStart_succ h.month.1]
  omega

/-- A date comes before the end of its year. -/
theorem IsValid.dayNumber_lt_yearStart (h : d.IsValid) :
    d.dayNumber < yearStart (d.year + 1) := by
  have hmonth := h.dayNumber_lt_monthStart
  have hend : monthStart d.year (d.month + 1) ≤ monthStart d.year 13 :=
    monthStart_mono (by omega) (by have := h.month; omega)
  rw [yearStart_succ h.year, ← monthStart_end]
  omega

/-- Dates are numbered in the order of their years, months and days. -/
theorem dayNumber_lt (h : d.IsValid)
    (hlt : d.year < d'.year ∨ d.year = d'.year ∧
      (d.month < d'.month ∨ d.month = d'.month ∧ d.day < d'.day)) :
    d.dayNumber < d'.dayNumber := by
  rcases hlt with hyear | ⟨hyear, hmonth | ⟨hmonth, hday⟩⟩
  · calc d.dayNumber < yearStart (d.year + 1) := h.dayNumber_lt_yearStart
      _ ≤ yearStart d'.year := yearStart_mono (by have := h.year; omega) hyear
      _ ≤ d'.dayNumber := by rw [dayNumber]; omega
  · calc d.dayNumber < yearStart d.year + monthStart d.year (d.month + 1) :=
          h.dayNumber_lt_monthStart
      _ ≤ yearStart d'.year + monthStart d'.year d'.month := by
          rw [hyear]
          exact Nat.add_le_add_left (monthStart_mono (by omega) hmonth) _
      _ ≤ d'.dayNumber := by rw [dayNumber]; omega
  · have := h.day
    rw [dayNumber, dayNumber, hyear, hmonth]
    omega

end Order

/-! ## Years that begin in March -/

/-- The days from the first of March of the year 0 to that of a year. -/
def marchStart (year : ℕ) : ℕ := 365 * year + year / 4 - year / 100 + year / 400

/-- Years from March are as long as the years in which they end. -/
theorem marchStart_succ (year : ℕ) :
    marchStart (year + 1) = marchStart year + 365 + leapDays (year + 1) := by
  have hle : year / 100 ≤ year / 4 := Nat.div_le_div_left (by norm_num) (by norm_num)
  unfold marchStart
  rw [leapDays_eq, Nat.succ_div, Nat.succ_div, Nat.succ_div]
  split_ifs <;> omega

/-- The formula for months from March counts the days of each of them. -/
theorem daysOf_march (year : ℕ) {month : ℕ} (h : month < 10) :
    daysBeforeMonth month + daysOf year (month + 3) = daysBeforeMonth (month + 1) := by
  interval_cases month <;> simp [daysOf, daysBeforeMonth]

/-- The months from March on are counted past the leap day. -/
theorem monthStart_march (year : ℕ) {month : ℕ} (h : month < 10) :
    monthStart year (month + 3) = 59 + leapDays year + daysBeforeMonth month := by
  induction month with
  | zero =>
    have hjanuary : monthStart year 1 = 0 ∧ daysOf year 1 = 31 := ⟨rfl, rfl⟩
    rw [monthStart_succ (by omega), monthStart_succ (by omega), daysOf_february, daysBeforeMonth]
    omega
  | succ month ih =>
    rw [Nat.add_right_comm, monthStart_succ (by omega), ih (by omega), Nat.add_assoc,
      daysOf_march year (by omega)]

/-- Only the leap day makes years different in length. -/
theorem daysOfYear_eq (year : ℕ) : daysOfYear year = 365 + leapDays year := by
  have hdecember : daysOf year 12 = 31 ∧ daysBeforeMonth 9 = 275 := ⟨rfl, rfl⟩
  rw [← monthStart_end, monthStart_succ (by omega), monthStart_march year (by omega : 9 < 10)]
  omega

/-- The days before March are counted to the year that has begun in January. -/
theorem yearStart_march {year : ℕ} (h : 1970 ≤ year) :
    yearStart year + 59 + leapDays year + daysBefore1970 = marchStart year := by
  induction year, h using Nat.le_induction with
  | base => decide
  | succ year hyear ih =>
    rw [yearStart_succ hyear, daysOfYear_eq, marchStart_succ]
    omega

/-! ## The divisions -/

/-- A day of an era by its century, its cycle of four years, its year and its place in that, all
counted from March.  Only the last year of a cycle has a leap day, and of the last cycles of the
centuries only that of the fourth. -/
structure EraDay where
  century : ℕ
  cycle : ℕ
  year : ℕ
  rest : ℕ
  exists_day : century ≤ 3 ∧ cycle ≤ 24 ∧ year ≤ 3 ∧ rest ≤ 365 ∧
    (rest = 365 → year = 3 ∧ (cycle < 24 ∨ century = 3))

namespace EraDay

/-- The day in its era. -/
def day (d : EraDay) : ℕ := 36524 * d.century + 1461 * d.cycle + 365 * d.year + d.rest

/-- Every day of an era has a century, a cycle, a year and a place in it. -/
theorem exists_day_eq {day : ℕ} (h : day < daysOfEra) : ∃ d : EraDay, d.day = day := by
  unfold daysOfEra at h
  -- the last century and the last year of a cycle are a day longer, so the quotients are cut to 3
  obtain ⟨century, inCentury, hday, hcentury⟩ : ∃ century inCentury,
      day = 36524 * century + inCentury ∧ century ≤ 3 ∧ inCentury ≤ 36524 ∧
        (inCentury = 36524 → century = 3) :=
    ⟨min 3 (day / 36524), day - 36524 * min 3 (day / 36524), by omega⟩
  obtain ⟨cycle, inCycle, hinCentury, hcycle⟩ : ∃ cycle inCycle,
      inCentury = 1461 * cycle + inCycle ∧ inCycle < 1461 :=
    ⟨inCentury / 1461, inCentury % 1461, by omega⟩
  obtain ⟨year, rest, hinCycle, hyear⟩ : ∃ year rest,
      inCycle = 365 * year + rest ∧ year ≤ 3 ∧ rest ≤ 365 ∧ (rest = 365 → year = 3) :=
    ⟨min 3 (inCycle / 365), inCycle - 365 * min 3 (inCycle / 365), by omega⟩
  refine ⟨⟨century, cycle, year, rest, by omega⟩, ?_⟩
  show 36524 * century + 1461 * cycle + 365 * year + rest = day
  omega

variable (d : EraDay)

/-- The divisions find the year.  The first of them counts a leap day early from some day of the
last year of a cycle on, but never so that a year is missed. -/
theorem yearOfEra_day : yearOfEra d.day = 100 * d.century + 4 * d.cycle + d.year := by
  obtain ⟨century, cycle, year, rest, hcentury, hcycle, hyear, hrest, hleap⟩ := d
  obtain ⟨day, hday⟩ : ∃ day, day = 36524 * century + 1461 * cycle + 365 * year + rest := ⟨_, rfl⟩
  simp only [EraDay.day, ← hday]
  -- on the last day of the era alone the last division counts
  by_cases hlast : day = 146096
  · obtain ⟨rfl, rfl, rfl⟩ : century = 3 ∧ cycle = 24 ∧ year = 3 := by omega
    rw [hlast]
    decide
  have hera : day / 146096 = 0 := Nat.div_eq_of_lt (by omega)
  have hcenturies : day / 36524 = century := Nat.div_eq_of_lt_le (by omega) (by omega)
  -- 1460 instead of 1461: the leap day of the cycle may be counted `early`, and the bounds on it
  -- are what the division by 365 bears
  obtain ⟨early, hleapDays, hearly⟩ : ∃ early, day / 1460 = 25 * century + cycle + early ∧
      early ≤ rest ∧ rest < 365 + early := by
    by_cases hlt : 24 * century + cycle + 365 * year + rest < 1460
    · exact ⟨0, Nat.div_eq_of_lt_le (by omega) (by omega), by omega, by omega⟩
    · exact ⟨1, Nat.div_eq_of_lt_le (by omega) (by omega), by omega, by omega⟩
  rw [yearOfEra, hera, hcenturies, hleapDays]
  exact Nat.div_eq_of_lt_le (by omega) (by omega)

/-- An era has 400 years. -/
theorem yearOfEra_lt : yearOfEra d.day < 400 := by
  have hday := d.exists_day
  rw [yearOfEra_day]
  omega

/-- The days before the year of a day, and those in it before the day, make up the day. -/
theorem daysBeforeYear_day : daysBeforeYear (yearOfEra d.day) + d.rest = d.day := by
  have hday := d.exists_day
  have hfours : (100 * d.century + 4 * d.cycle + d.year) / 4 = 25 * d.century + d.cycle := by omega
  have hhundreds : (100 * d.century + 4 * d.cycle + d.year) / 100 = d.century := by omega
  rw [yearOfEra_day, daysBeforeYear, hfours, hhundreds, EraDay.day]
  omega

/-- A year that begins in March ends with the leap day of the next one. -/
theorem rest_lt : d.rest < 365 + leapDays (yearOfEra d.day + 1) := by
  have hday := d.exists_day
  rw [yearOfEra_day, leapDays_eq]
  split <;> omega

end EraDay

/-- The date of a day of a year that begins in March. -/
def ofMarch (year day : ℕ) : Date where
  year := year + if monthFromMarch day < 10 then 0 else 1
  month := if monthFromMarch day < 10 then monthFromMarch day + 3 else monthFromMarch day - 9
  day := day - daysBeforeMonth (monthFromMarch day) + 1

/-- Every day has a place in a year that begins in March. -/
theorem exists_ofDay_eq (day : ℕ) :
    ∃ year rest, day + daysBefore1970 = marchStart year + rest ∧ rest < 365 + leapDays (year + 1) ∧
      ofDay day = ofMarch year rest := by
  obtain ⟨era, hera⟩ : ∃ era, era = (day + daysBefore1970) / daysOfEra := ⟨_, rfl⟩
  obtain ⟨d, hd⟩ := EraDay.exists_day_eq (Nat.mod_lt (day + daysBefore1970) (by decide))
  have hyear := d.yearOfEra_lt
  have hday := d.daysBeforeYear_day
  refine ⟨yearOfEra d.day + 400 * era, d.rest, ?_, ?_, ?_⟩
  · have hdiv : daysOfEra * era + d.day = day + daysBefore1970 := by
      rw [hera, hd]
      exact Nat.div_add_mod _ _
    unfold daysBeforeYear at hday
    unfold daysOfEra at hdiv
    unfold marchStart
    omega
  · have hlt := d.rest_lt
    rw [leapDays_eq] at hlt ⊢
    split at hlt <;> split <;> omega
  · have hrest : d.day - daysBeforeYear (yearOfEra d.day) = d.rest := by omega
    unfold ofDay ofMarch
    simp only [← hera, ← hd, hrest]

/-- The month of a day is the one in which it lies. -/
theorem monthFromMarch_spec (day : ℕ) :
    daysBeforeMonth (monthFromMarch day) ≤ day ∧
      day < daysBeforeMonth (monthFromMarch day + 1) := by
  unfold daysBeforeMonth monthFromMarch
  omega

section OfMarch

variable {year day : ℕ}

/-- The months from March to December are in the year in which March is. -/
theorem ofMarch_of_lt (h : monthFromMarch day < 10) :
    ofMarch year day = ⟨year, monthFromMarch day + 3,
      day - daysBeforeMonth (monthFromMarch day) + 1⟩ := by
  rw [ofMarch, if_pos h, if_pos h, Nat.add_zero]

/-- January and February are in the year after. -/
theorem ofMarch_of_le (h : 10 ≤ monthFromMarch day) :
    ofMarch year day = ⟨year + 1, monthFromMarch day - 9,
      day - daysBeforeMonth (monthFromMarch day) + 1⟩ := by
  rw [ofMarch, if_neg (Nat.not_lt.mpr h), if_neg (Nat.not_lt.mpr h)]

/-- A day of a year that begins in March is a date, and is counted to that year. -/
theorem ofMarch_spec (hyear : 1970 ≤ (ofMarch year day).year)
    (hday : day < 365 + leapDays (year + 1)) :
    (ofMarch year day).IsValid ∧
      (ofMarch year day).dayNumber + daysBefore1970 = marchStart year + day := by
  obtain ⟨hfrom, hto⟩ := monthFromMarch_spec day
  by_cases hmonth : monthFromMarch day < 10
  · rw [ofMarch_of_lt hmonth] at hyear ⊢
    dsimp only at hyear
    have hstart := yearStart_march hyear
    have hlength := daysOf_march year hmonth
    refine ⟨⟨hyear, ?_, ?_⟩, ?_⟩ <;> dsimp only [dayNumber]
    · omega
    · omega
    · rw [monthStart_march year hmonth]
      omega
  · have hlate := Nat.le_of_not_lt hmonth
    rw [ofMarch_of_le hlate] at hyear ⊢
    dsimp only at hyear
    have hstart := yearStart_march hyear
    rw [marchStart_succ] at hstart
    -- January and February stand at the end of their year from March, 306 days into it
    have hmonths : monthFromMarch day = 10 ∨ monthFromMarch day = 11 := by
      have := leapDays_le (year + 1)
      unfold monthFromMarch at hlate ⊢
      omega
    obtain ⟨hbefore, hlength⟩ : monthStart (year + 1) (monthFromMarch day - 9) + 306
          = daysBeforeMonth (monthFromMarch day) ∧
        day - daysBeforeMonth (monthFromMarch day)
          < daysOf (year + 1) (monthFromMarch day - 9) := by
      rcases hmonths with hjanuary | hfebruary
      · rw [hjanuary] at hto ⊢
        exact ⟨rfl, Nat.sub_lt_left_of_lt_add (hjanuary ▸ hfrom) hto⟩
      · have hdays : daysBeforeMonth 11 = 337 := rfl
        rw [hfebruary, hdays] at hfrom ⊢
        refine ⟨rfl, ?_⟩
        rw [daysOf_february]
        omega
    refine ⟨⟨hyear, ?_, ?_⟩, ?_⟩ <;> dsimp only [dayNumber] <;> omega

end OfMarch

/-! ## Days and dates -/

/-- Days that are counted from 1970 are in 1970 or later. -/
theorem le_year_ofDay (day : ℕ) : 1970 ≤ (ofDay day).year := by
  obtain ⟨year, rest, hday, hrest, heq⟩ := exists_ofDay_eq day
  have hmono : Monotone marchStart := monotone_nat_of_le_succ fun year => by
    rw [marchStart_succ]
    omega
  have hend := marchStart_succ year
  -- 1970 begins 306 days into the year from March 1969
  have hlate : 1969 ≤ year := by
    by_contra hearly
    have hle : marchStart (year + 1) ≤ marchStart 1969 := hmono (by omega)
    have h1969 : marchStart 1969 + 306 = daysBefore1970 := rfl
    omega
  rw [heq]
  by_cases hmonth : monthFromMarch rest < 10
  · rw [ofMarch_of_lt hmonth]
    refine Nat.lt_of_le_of_ne hlate ?_
    rintro rfl
    have h1969 : marchStart 1969 + 306 = daysBefore1970 := rfl
    unfold monthFromMarch at hmonth
    omega
  · rw [ofMarch_of_le (Nat.le_of_not_lt hmonth)]
    exact Nat.succ_le_succ hlate

/-- The date of a day is one of the calendar, and its number is the day. -/
theorem ofDay_spec (day : ℕ) : (ofDay day).IsValid ∧ (ofDay day).dayNumber = day := by
  obtain ⟨year, rest, hday, hrest, heq⟩ := exists_ofDay_eq day
  have hyear := le_year_ofDay day
  rw [heq] at hyear ⊢
  obtain ⟨hvalid, hnumber⟩ := ofMarch_spec hyear hrest
  exact ⟨hvalid, by omega⟩

/-- Different days have different dates. -/
theorem ofDay_injective : Function.Injective ofDay := fun day day' h => by
  rw [← (ofDay_spec day).2, h, (ofDay_spec day').2]

/-! ## Machine words -/

/-- A result, if a signed word of 64 bits holds it. -/
def word? (n : ℕ) : Option ℕ := if n < 2 ^ 63 then some n else none

/-- A result, if an unsigned word of 32 bits holds it. -/
def halfWord? (n : ℕ) : Option ℕ := if n < 2 ^ 32 then some n else none

/-- A difference, if it is not negative. -/
def minus? (m n : ℕ) : Option ℕ := if n ≤ m then some (m - n) else none

/-- `yearOfEra` with every result checked. -/
def yearOfEra? (day : ℕ) : Option ℕ := do
  let days ← minus? day (day / 1460)
  let days ← word? (days + day / 36524)
  let days ← minus? days (day / 146096)
  some (days / 365)

/-- `daysBeforeYear` with every result checked. -/
def daysBeforeYear? (year : ℕ) : Option ℕ := do
  let days ← word? (365 * year)
  let days ← word? (days + year / 4)
  minus? days (year / 100)

/-- `monthFromMarch` with every result checked. -/
def monthFromMarch? (day : ℕ) : Option ℕ := do
  let fifths ← word? (5 * day)
  let fifths ← word? (fifths + 2)
  some (fifths / 153)

/-- `daysBeforeMonth` with every result checked. -/
def daysBeforeMonth? (month : ℕ) : Option ℕ := do
  let fifths ← word? (153 * month)
  let fifths ← word? (fifths + 2)
  some (fifths / 5)

/-- The month of a year that begins in January, checked. -/
def fromJanuary? (month : ℕ) : Option ℕ := if month < 10 then word? (month + 3) else minus? month 9

/-- `ofMarch` with every result checked; month and day are unsigned words of 32 bits. -/
def ofMarch? (year day : ℕ) : Option Date := do
  let fromMarch ← monthFromMarch? day
  let dayOfMonth ← minus? day (← daysBeforeMonth? fromMarch)
  let dayOfMonth ← halfWord? (← word? (dayOfMonth + 1))
  let month ← halfWord? (← fromJanuary? fromMarch)
  let year ← word? (year + if month ≤ 2 then 1 else 0)
  some ⟨year, month, dayOfMonth⟩

/-- `ofDay` in signed words of 64 bits; there is no date if a result does not fit or is negative
where it must not be. -/
def ofDayInWords? (day : ℕ) : Option Date := do
  let fromMarch ← word? (day + daysBefore1970)
  let yearOfEra ← yearOfEra? (fromMarch % daysOfEra)
  let daysBeforeYear ← daysBeforeYear? yearOfEra
  let dayOfYear ← minus? (fromMarch % daysOfEra) daysBeforeYear
  let years ← word? (400 * (fromMarch / daysOfEra))
  let year ← word? (yearOfEra + years)
  ofMarch? year dayOfYear

section Words

/-- What fits into a word of 64 bits is kept. -/
theorem word?_eq {n : ℕ} (h : n < 2 ^ 63) : word? n = some n := if_pos h

/-- What fits into a word of 32 bits is kept. -/
theorem halfWord?_eq {n : ℕ} (h : n < 2 ^ 32) : halfWord? n = some n := if_pos h

/-- A difference that is not negative is kept. -/
theorem minus?_eq {m n : ℕ} (h : n ≤ m) : minus? m n = some (m - n) := if_pos h

/-- A stage that has a result hands it on. -/
theorem bind_of_eq {α β : Type} {x : Option α} {a : α} (h : x = some a) (f : α → Option β) :
    x >>= f = f a := by
  rw [h]
  rfl

/-- The year of a day of an era is computed within words. -/
theorem yearOfEra?_eq {day : ℕ} (h : day < daysOfEra) : yearOfEra? day = some (yearOfEra day) := by
  unfold daysOfEra at h
  have hlast : day / 146096 ≤ day / 36524 := Nat.div_le_div_left (by norm_num) (by norm_num)
  simp (disch := omega) only [yearOfEra?, word?_eq, minus?_eq, Option.bind_eq_bind,
    Option.bind_some, yearOfEra]

/-- The days before a year of an era are computed within words. -/
theorem daysBeforeYear?_eq {year : ℕ} (h : year < 400) :
    daysBeforeYear? year = some (daysBeforeYear year) := by
  simp (disch := omega) only [daysBeforeYear?, word?_eq, minus?_eq, Option.bind_eq_bind,
    Option.bind_some, daysBeforeYear]

/-- The month of a day of a year is computed within words. -/
theorem monthFromMarch?_eq {day : ℕ} (h : day < 366) :
    monthFromMarch? day = some (monthFromMarch day) := by
  simp (disch := omega) only [monthFromMarch?, word?_eq, Option.bind_eq_bind, Option.bind_some,
    monthFromMarch]

/-- The days before a month are computed within words. -/
theorem daysBeforeMonth?_eq {month : ℕ} (h : month < 12) :
    daysBeforeMonth? month = some (daysBeforeMonth month) := by
  simp (disch := omega) only [daysBeforeMonth?, word?_eq, Option.bind_eq_bind, Option.bind_some,
    daysBeforeMonth]

/-- The date of a day of a year is computed within words, however late the year. -/
theorem ofMarch?_eq {year day : ℕ} (hyear : year < 2 ^ 62) (hday : day < 366) :
    ofMarch? year day = some (ofMarch year day) := by
  obtain ⟨hfrom, -⟩ := monthFromMarch_spec day
  have hmonth : monthFromMarch day < 12 := by
    unfold monthFromMarch
    omega
  rw [ofMarch?, bind_of_eq (monthFromMarch?_eq hday), bind_of_eq (daysBeforeMonth?_eq hmonth),
    bind_of_eq (minus?_eq hfrom), bind_of_eq (word?_eq (by omega)),
    bind_of_eq (halfWord?_eq (by omega))]
  by_cases hearly : monthFromMarch day < 10
  · have hmonth : fromJanuary? (monthFromMarch day) = some (monthFromMarch day + 3) := by
      rw [fromJanuary?, if_pos hearly, word?_eq (by omega)]
    have hmarch : ¬ monthFromMarch day + 3 ≤ 2 := by omega
    rw [bind_of_eq hmonth, bind_of_eq (halfWord?_eq (by omega)), if_neg hmarch,
      bind_of_eq (word?_eq (by omega)), ofMarch_of_lt hearly, Nat.add_zero]
  · have hlate := Nat.le_of_not_lt hearly
    have hmonth : fromJanuary? (monthFromMarch day) = some (monthFromMarch day - 9) := by
      rw [fromJanuary?, if_neg hearly, minus?_eq (by omega)]
    have hjanuary : monthFromMarch day - 9 ≤ 2 := by omega
    rw [bind_of_eq hmonth, bind_of_eq (halfWord?_eq (by omega)), if_pos hjanuary,
      bind_of_eq (word?_eq (by omega)), ofMarch_of_le hlate]

/-- No result on the way to a date overflows or is negative where it must not be.  Seconds of 64
bits reach no later days than these. -/
theorem ofDayInWords?_eq {day : ℕ} (h : day < 2 ^ 48) : ofDayInWords? day = some (ofDay day) := by
  obtain ⟨d, hd⟩ := EraDay.exists_day_eq (Nat.mod_lt (day + daysBefore1970) (by decide))
  have hera : d.day < daysOfEra := hd ▸ Nat.mod_lt _ (by decide)
  have hyear := d.yearOfEra_lt
  have hdays := d.daysBeforeYear_day
  have hrest : d.rest < 366 := by
    have := d.exists_day
    omega
  have hfromMarch : day + daysBefore1970 < 2 ^ 50 := by
    unfold daysBefore1970
    omega
  have heras : (day + daysBefore1970) / daysOfEra < 2 ^ 50 :=
    (Nat.div_le_self _ _).trans_lt hfromMarch
  have hdayOfYear : d.day - daysBeforeYear (yearOfEra d.day) = d.rest := by omega
  have hyears : yearOfEra d.day + 400 * ((day + daysBefore1970) / daysOfEra) < 2 ^ 62 := by omega
  rw [ofDayInWords?, bind_of_eq (word?_eq (by omega)), ← hd, bind_of_eq (yearOfEra?_eq hera),
    bind_of_eq (daysBeforeYear?_eq hyear), bind_of_eq (minus?_eq (by omega)),
    bind_of_eq (word?_eq (by omega)), bind_of_eq (word?_eq (by omega)), hdayOfYear,
    ofMarch?_eq hyears hrest]
  unfold ofDay ofMarch
  simp only [← hd, hdayOfYear]

end Words

end Date

end Patchbay
