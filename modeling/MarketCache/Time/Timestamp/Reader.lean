import MarketCache.Text.Blank
import MarketCache.Time.Timestamp

/-!
# Reading timestamps

A timestamp is a date, one of `T`, `t` and a space, a time of day, and a zone. The reader is
lenient: numbers may be short and have white space in front of them, the separators `-`
and `:` too, and the zone is `UTC` or `Z` in any case or an offset whose hours and minutes
have any colons and white space between them.

Main definitions:
* `Timestamp.date?`, `Timestamp.clock?`, `Timestamp.zone?`: the three parts, each with what
  follows it.
* `Instant.ofTimestamp?`: the instant of a text.
-/

namespace MarketCache

namespace Timestamp

/-- A number of at least one and at most `width` digits, and what follows it. -/
def digits? (width : Nat) (cs : List Char) : Option (Nat × List Char) :=
  let ds := (cs.take width).takeWhile Char.isDigit
  if ds = [] then none else some (Nat.ofDigitChars 10 ds 0, cs.drop ds.length)

/-- A number of one or two digits after white space. -/
def field? (cs : List Char) : Option (Nat × List Char) := digits? 2 (Text.trimStart cs)

/-- A year after white space: up to four digits, or a sign and any number of them. -/
def year? (cs : List Char) : Option (Int × List Char) :=
  match Text.trimStart cs with
  | '-' :: rest => do
    let (y, rest) ← digits? rest.length rest
    some (-y, rest)
  | '+' :: rest => do
    let (y, rest) ← digits? rest.length rest
    some (y, rest)
  | rest => do
    let (y, rest) ← digits? 4 rest
    some (y, rest)

/-- What follows the character `c` after white space. -/
def separator? (c : Char) (cs : List Char) : Option (List Char) :=
  match Text.trimStart cs with
  | d :: rest => if d = c then some rest else none
  | [] => none

/-- A date. -/
def date? (cs : List Char) : Option (Date × List Char) := do
  let (year, cs) ← year? cs
  let cs ← separator? '-' cs
  let (month, cs) ← field? cs
  let cs ← separator? '-' cs
  let (day, cs) ← field? cs
  some (⟨year, month, day⟩, cs)

/-- Nanoseconds from a fraction of a second; digits after the ninth are dropped. -/
def fraction? : List Char → Option (Nat × List Char)
  | '.' :: rest => do
    let (n, after) ← digits? 9 rest
    some (n * Nat.pow 10 (9 - (rest.length - after.length)), after.dropWhile Char.isDigit)
  | rest => some (0, rest)

/-- A time of day: the second of the day and the nanoseconds in it. Second 60 is a leap
    second, which lengthens second 59. -/
def clock? (cs : List Char) : Option (Nat × Nat × List Char) := do
  let (hour, cs) ← field? cs
  let cs ← separator? ':' cs
  let (minute, cs) ← field? cs
  let cs ← separator? ':' cs
  let (second, cs) ← field? cs
  let (nano, cs) ← fraction? cs
  if hour < 24 ∧ minute < 60 ∧ second ≤ 60 then
    let base := hour * 3600 + minute * 60
    if second = 60 then some (base + 59, nano + 1000000000, cs)
    else some (base + second, nano, cs)
  else none

/-- Two digits, the first of them at most `top`. -/
def pair? (top : Char) : List Char → Option (Nat × List Char)
  | a :: b :: rest =>
    if a.isDigit ∧ a ≤ top ∧ b.isDigit then some (Nat.ofDigitChars 10 [a, b] 0, rest) else none
  | _ => none

/-- Seconds east of UTC, from hours and minutes. -/
def offset? (cs : List Char) : Option (Nat × List Char) := do
  let (hours, cs) ← pair? '9' cs
  let (minutes, cs) ← pair? '5' (cs.dropWhile fun c => c = ':' || Text.isBlank c)
  let seconds := hours * 3600 + minutes * 60
  if seconds < 86400 then some (seconds, cs) else none

/-- A zone after white space, as seconds east of UTC. -/
def zone? (cs : List Char) : Option (Int × List Char) :=
  let cs := Text.trimStart cs
  if (cs.take 3).map Char.toUpper = ['U', 'T', 'C'] then some (0, cs.drop 3)
  else
    match cs with
    | 'Z' :: rest => some (0, rest)
    | 'z' :: rest => some (0, rest)
    | '+' :: rest => do
      let (s, rest) ← offset? rest
      some (s, rest)
    | '-' :: rest => do
      let (s, rest) ← offset? rest
      some (-s, rest)
    | '−' :: rest => do
      let (s, rest) ← offset? rest
      some (-s, rest)
    | _ => none

end Timestamp

/-- Whether instants exist on the day of a date. -/
def Date.InRange (d : Date) : Prop := d.IsValid ∧ -262143 ≤ d.year ∧ d.year ≤ 262142

instance (d : Date) : Decidable d.InRange :=
  inferInstanceAs (Decidable (d.IsValid ∧ -262143 ≤ d.year ∧ d.year ≤ 262142))

/-- The instant that a timestamp stands for. Both the date it names and the date in UTC have
    to be in range. -/
def Instant.ofTimestampChars? (cs : List Char) : Option Instant := do
  let (date, cs) ← Timestamp.date? cs
  let cs ←
    match cs with
    | 'T' :: rest => some rest
    | 't' :: rest => some rest
    | ' ' :: rest => some rest
    | _ => none
  let (seconds, nano, cs) ← Timestamp.clock? cs
  let (east, cs) ← Timestamp.zone? cs
  if Text.trimStart cs = [] ∧ date.InRange then
    let second := date.dayNumber * 86400 + seconds - east
    if Instant.earliestSecond ≤ second ∧ second ≤ Instant.latestSecond then some ⟨second, nano⟩
    else none
  else none

/-- The instant that a timestamp stands for. -/
def Instant.ofTimestamp? (s : String) : Option Instant := Instant.ofTimestampChars? s.toList

end MarketCache
