import MarketCache.Time.Duration

/-!
# Instants

Points in time in UTC: the second of the Unix time scale, and the nanoseconds that have
passed since it began. During a leap second the nanoseconds of the second before it go on
past `10 ^ 9`. In UTC that is the last second of a minute, but an instant may be in a leap
second behind any other one too.

Main definitions:
* `since`: the time from one instant to another; it counts a leap second that lies inside.
* `add?`: the instant after a length of time, if it is not beyond the latest one.
* `millis`: milliseconds since the epoch, rounded down.
-/

namespace MarketCache

/-- A point in time. -/
structure Instant where
  /-- Seconds since 1970-01-01T00:00:00Z, leap seconds not counted. -/
  second : Int
  /-- Nanoseconds since the second began; from `10 ^ 9` on a leap second is under way. -/
  nano : Nat
deriving DecidableEq, Repr, Inhabited

namespace Instant

/-- The first second of the year -262143. -/
def earliestSecond : Int := -8334601228800

/-- The last second of the year 262142. -/
def latestSecond : Int := 8210266876799

/-- The latest instant. -/
def latest : Instant := ⟨latestSecond, 999999999⟩

/-- Whether a leap second is under way. -/
def isLeap (t : Instant) : Bool := t.nano ≥ 1000000000

/-- What an instant can be: a second in range, with the nanoseconds of that second or of a leap
    second behind it, in whichever second of a minute that is. -/
def Representable (t : Instant) : Prop :=
  earliestSecond ≤ t.second ∧ t.second ≤ latestSecond ∧ t.nano < 2000000000

instance (t : Instant) : Decidable t.Representable :=
  inferInstanceAs (Decidable (_ ∧ _ ∧ _))

/-! ## Order -/

instance : LE Instant := ⟨fun a b => a.second < b.second ∨ (a.second = b.second ∧ a.nano ≤ b.nano)⟩

instance : LT Instant := ⟨fun a b => a.second < b.second ∨ (a.second = b.second ∧ a.nano < b.nano)⟩

instance (a b : Instant) : Decidable (a ≤ b) :=
  inferInstanceAs (Decidable (a.second < b.second ∨ (a.second = b.second ∧ a.nano ≤ b.nano)))

instance (a b : Instant) : Decidable (a < b) :=
  inferInstanceAs (Decidable (a.second < b.second ∨ (a.second = b.second ∧ a.nano < b.nano)))

theorem le_def {a b : Instant} :
    a ≤ b ↔ a.second < b.second ∨ (a.second = b.second ∧ a.nano ≤ b.nano) := Iff.rfl

theorem lt_def {a b : Instant} :
    a < b ↔ a.second < b.second ∨ (a.second = b.second ∧ a.nano < b.nano) := Iff.rfl

protected theorem le_refl (a : Instant) : a ≤ a := Or.inr ⟨rfl, Nat.le_refl _⟩

protected theorem le_trans {a b c : Instant} (h : a ≤ b) (h' : b ≤ c) : a ≤ c := by
  rw [le_def] at *; omega

protected theorem le_antisymm {a b : Instant} (h : a ≤ b) (h' : b ≤ a) : a = b := by
  rw [le_def] at *
  cases a; cases b
  simp only [Instant.mk.injEq] at *
  omega

protected theorem le_total (a b : Instant) : a ≤ b ∨ b ≤ a := by
  simp only [le_def]; omega

protected theorem not_le {a b : Instant} : ¬ a ≤ b ↔ b < a := by
  simp only [le_def, lt_def]; omega

/-! ## Lengths of time -/

/-- The second of its day in which an instant lies. -/
def timeOfDay (t : Instant) : Int := t.second % 86400

/-- The leap seconds that lie between two instants: one, counted forward or backward, if
    the earlier time of day is inside a leap second; none if the times of day agree. -/
def leapsBetween (t u : Instant) : Int :=
  if t.timeOfDay > u.timeOfDay ∧ u.isLeap then 1
  else if t.timeOfDay < u.timeOfDay ∧ t.isLeap then -1
  else 0

/-- The time from `u` to `t`. -/
def since (t u : Instant) : Duration :=
  ⟨(t.second - u.second + leapsBetween t u) * 1000000000 + (t.nano - u.nano)⟩

/-- The second and nanosecond from which a length of time is counted on outside a leap
    second: the last moment of an instant's own second, or the start of the next one when
    going back. -/
def outsideLeap (t : Instant) (d : Duration) : Instant :=
  if t.isLeap then
    if d.wholeSeconds < 0 then ⟨t.second + 1, t.nano - 1000000000⟩
    else ⟨t.second, t.nano - 1000000000⟩
  else t

/-- Whether a length of time is so short that it does not lead past a leap second. -/
def staysInLeap (t : Instant) (d : Duration) : Bool :=
  t.isLeap && d.wholeSeconds == 0 && (d.subNanos ≤ 0 || t.nano + d.subNanos < 2000000000)

/-- The instant a length of time after `t`, if there is one. -/
def add? (t : Instant) (d : Duration) : Option Instant :=
  if t.staysInLeap d then some ⟨t.second, (t.nano + d.subNanos).toNat⟩
  else
    let u := t.outsideLeap d
    let nanos := u.nano + d.subNanos
    let second := u.second + d.wholeSeconds + nanos / 1000000000
    if earliestSecond ≤ second ∧ second ≤ latestSecond then
      some ⟨second, (nanos % 1000000000).toNat⟩
    else none

/-- Whole milliseconds since the epoch. -/
def millis (t : Instant) : Int := t.second * 1000 + t.nano / 1000000

/-- Outside leap seconds the time between two instants is their plain distance. -/
theorem since_of_not_isLeap {t u : Instant} (ht : t.isLeap = false) (hu : u.isLeap = false) :
    t.since u = ⟨(t.second * 1000000000 + t.nano) - (u.second * 1000000000 + u.nano)⟩ := by
  simp only [since, leapsBetween, ht, hu, Bool.false_eq_true, and_false, if_false]
  congr 1
  omega

end Instant

end MarketCache
