/-!
# Calendar

The proleptic Gregorian calendar: dates and the number of days from 1970-01-01 to them.
The year 0 comes before the year 1.

Main definitions:
* `Date.dayNumber`: the number of the day of a date.
* `Date.ofDayNumber`: the date of the day of a number.
-/

namespace MarketCache

/-- Whether a year has 366 days. -/
def isLeapYear (year : Int) : Bool := year % 4 == 0 && (year % 100 != 0 || year % 400 == 0)

/-- The days from 0001-01-01 to the first day of a year. -/
def daysBeforeYear (year : Int) : Int :=
  let y := year - 1
  365 * y + y / 4 - y / 100 + y / 400

/-- The days of the twelve months. -/
def monthLengths (leap : Bool) : List Nat :=
  [31, if leap then 29 else 28, 31, 30, 31, 30, 31, 31, 30, 31, 30, 31]

/-- A day of the calendar; months and days count from 1. -/
structure Date where
  year : Int
  month : Nat
  day : Nat
deriving DecidableEq, Repr, Inhabited

namespace Date

/-- The days from 0001-01-01 to 1970-01-01. -/
def epochDay : Int := 719162

/-- Whether the calendar has the date. -/
def IsValid (d : Date) : Prop :=
  1 ≤ d.month ∧ 1 ≤ d.day ∧ ∃ len ∈ (monthLengths (isLeapYear d.year))[d.month - 1]?, d.day ≤ len

instance (d : Date) : Decidable d.IsValid :=
  inferInstanceAs (Decidable (_ ∧ _ ∧ ∃ len ∈ (monthLengths (isLeapYear d.year))[d.month - 1]?, _))

/-- The days from the first day of the year. -/
def dayOfYear (d : Date) : Nat :=
  ((monthLengths (isLeapYear d.year)).take (d.month - 1)).foldr (· + ·) 0 + (d.day - 1)

/-- The days from 1970-01-01; negative before it. -/
def dayNumber (d : Date) : Int := daysBeforeYear d.year + d.dayOfYear - epochDay

/-- Splits a number of days into months of the given lengths: how many are over, and how
    many days of the next one. -/
def splitMonths : List Nat → Nat → Nat × Nat
  | [], days => (0, days)
  | len :: lens, days =>
    if days < len then (0, days)
    else
      let (months, rest) := splitMonths lens (days - len)
      (months + 1, rest)

/-- The year in which a day lies, counted from 0001-01-01. A year has at most 366 days and
    on average 146097 / 400, so the quotient is the year or the one before it. -/
def yearOf (days : Int) : Int :=
  let year := days * 400 / 146097 + 1
  if daysBeforeYear (year + 1) ≤ days then year + 1 else year

/-- The date of the day with number `n` from 1970-01-01. -/
def ofDayNumber (n : Int) : Date :=
  let days := n + epochDay
  let year := yearOf days
  let (months, rest) :=
    splitMonths (monthLengths (isLeapYear year)) (days - daysBeforeYear year).toNat
  ⟨year, months + 1, rest + 1⟩

theorem daysBeforeYear_succ (year : Int) :
    daysBeforeYear (year + 1) = daysBeforeYear year + if isLeapYear year then 366 else 365 := by
  simp only [daysBeforeYear, isLeapYear, Bool.and_eq_true, Bool.or_eq_true, beq_iff_eq,
    bne_iff_ne]
  split <;> omega

/-- A day lies in the year that is computed for it. -/
theorem yearOf_spec (days : Int) :
    daysBeforeYear (yearOf days) ≤ days ∧ days < daysBeforeYear (yearOf days + 1) := by
  unfold yearOf daysBeforeYear
  simp only
  split <;> omega

end Date

end MarketCache
