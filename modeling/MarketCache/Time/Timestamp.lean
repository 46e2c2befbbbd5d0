import MarketCache.Text.Digits
import MarketCache.Time.Calendar
import MarketCache.Time.Instant

/-!
# Timestamps

The text of an instant: date and time of day in UTC, `T` between them, and a mark for UTC
at the end. The fraction of the second has 0, 3, 6 or 9 digits, the fewest that are exact.
A leap second is written as second 60.

Main definition: `Instant.timestamp`.
-/

namespace MarketCache

namespace Date

/-- A year: four digits or more, with a sign unless it is one of the years 0 to 9999. -/
def yearText (year : Int) : List Char :=
  if 0 ≤ year ∧ year ≤ 9999 then Text.padded 4 year.natAbs
  else (if year < 0 then '-' else '+') :: Text.padded 4 year.natAbs

/-- A date as year, month and day. -/
def text (d : Date) : List Char :=
  yearText d.year ++ '-' :: Text.padded 2 d.month ++ '-' :: Text.padded 2 d.day

end Date

namespace Instant

/-- The digits of a fraction of a second, the fewest groups of three that are exact. -/
def fractionText (nano : Nat) : List Char :=
  if nano = 0 then []
  else if nano % 1000000 = 0 then '.' :: Text.padded 3 (nano / 1000000)
  else if nano % 1000 = 0 then '.' :: Text.padded 6 (nano / 1000)
  else '.' :: Text.padded 9 nano

/-- The date in UTC. -/
def date (t : Instant) : Date := Date.ofDayNumber (t.second / 86400)

/-- Hour, minute and second of the day, with the fraction of the second. -/
def clockText (t : Instant) : List Char :=
  let s := t.timeOfDay.toNat
  let leap := if t.isLeap then 1 else 0
  Text.padded 2 (s / 3600) ++ ':' :: Text.padded 2 (s / 60 % 60) ++
    ':' :: Text.padded 2 (s % 60 + leap) ++ fractionText (t.nano - leap * 1000000000)

/-- An instant as text that ends in the given mark for UTC. -/
def textIn (utc : List Char) (t : Instant) : List Char :=
  t.date.text ++ 'T' :: t.clockText ++ utc

/-- The timestamp of an instant, with `Z` for UTC. -/
def timestamp (t : Instant) : String := String.ofList (t.textIn ['Z'])

/-- The timestamp of an instant, with the offset `+00:00` for UTC. -/
def offsetTimestamp (t : Instant) : String := String.ofList (t.textIn "+00:00".toList)

end Instant

end MarketCache
