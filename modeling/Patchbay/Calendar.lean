/-!
# Instants and dates

An instant counts seconds and nanoseconds from the beginning of 1970 in universal time.  Its text is
`YYYY-MM-DDThh:mm:ss.mmmZ`, in the proleptic Gregorian calendar.

Days are turned into dates within *eras* of 400 years, after which the calendar repeats, and
within years that begin in March, so that a leap day is the last day of its year.
-/

namespace Patchbay

/-- A point in time. -/
structure Instant where
  seconds : Int
  nanoseconds : Nat
  deriving DecidableEq, Repr

/-- A date of the Gregorian calendar. -/
structure Date where
  year : Nat
  month : Nat
  day : Nat
  deriving DecidableEq, Repr

namespace Date

/-- The days of an era. -/
def daysOfEra : Nat := 146097

/-- The days from the first of March of the year 0 to the beginning of 1970. -/
def daysBefore1970 : Nat := 719468

/-- The year of an era, counted from March, in which a day of the era lies. -/
def yearOfEra (day : Nat) : Nat := (day - day / 1460 + day / 36524 - day / 146096) / 365

/-- The days of an era before a year of it. -/
def daysBeforeYear (year : Nat) : Nat := 365 * year + year / 4 - year / 100

/-- The month, counted from March, in which a day of a year that begins in March lies. -/
def monthFromMarch (day : Nat) : Nat := (5 * day + 2) / 153

/-- The days of a year that begins in March before a month of it. -/
def daysBeforeMonth (month : Nat) : Nat := (153 * month + 2) / 5

/-- The date of a day, counted from the beginning of 1970. -/
def ofDay (day : Nat) : Date :=
  let fromMarch := day + daysBefore1970
  let era := fromMarch / daysOfEra
  let dayOfEra := fromMarch % daysOfEra
  let year := yearOfEra dayOfEra
  let dayOfYear := dayOfEra - daysBeforeYear year
  let month := monthFromMarch dayOfYear
  { year := year + 400 * era + if month < 10 then 0 else 1
    month := if month < 10 then month + 3 else month - 9
    day := dayOfYear - daysBeforeMonth month + 1 }

end Date

/-- A number in at least `width` digits. -/
def paddedDigits (width n : Nat) : List Char :=
  let digits := Nat.toDigits 10 n
  List.replicate (width - digits.length) '0' ++ digits

namespace Instant

/-- The seconds from the beginning of 1970; an earlier instant counts as that beginning. -/
def sinceEpoch (t : Instant) : Nat := t.seconds.toNat

/-- The milliseconds within the second. -/
def milliseconds (t : Instant) : Nat := if t.seconds < 0 then 0 else t.nanoseconds / 1000000

/-- The text of an instant, cut to milliseconds. -/
def timestamp (t : Instant) : String :=
  let date := Date.ofDay (t.sinceEpoch / 86400)
  let second := t.sinceEpoch % 86400
  String.ofList (paddedDigits 4 date.year ++ '-' :: paddedDigits 2 date.month
    ++ '-' :: paddedDigits 2 date.day ++ 'T' :: paddedDigits 2 (second / 3600)
    ++ ':' :: paddedDigits 2 (second % 3600 / 60) ++ ':' :: paddedDigits 2 (second % 60)
    ++ '.' :: paddedDigits 3 t.milliseconds ++ ['Z'])

end Instant

end Patchbay
