import MarketCache.Proofs.Time.Expiry
import MarketCache.Throttle
import MarketCache.WriteBack.Basic

/-!
# Ages in machine words

Whether a snapshot is fresh, whether the gate opens and whether a pass is due is decided by an
age and a configured length. Both are held in words: whole seconds in one of 64 bits, and the
nanoseconds beyond them in one of 32. A configured length that is longer than the longest length
of time is cut down to that one. The words are wide enough all the same: no step on the way from
two instants to their age leaves its word or the lengths of time, and no age comes near the length
at which configured ones are cut down, so that every decision is the one of exact arithmetic.

Main definitions:
* `word64?`, `word32?`: a result that has to fit into a word.
* `WordLength`: a length of time in words, with `add?`, `since?` and `ofSeconds`.
* `WordLength.isWithin?`: whether an age is below a configured length, by words alone.

Results:
* `WordLength.lt_iff`, `WordLength.exact_ofSeconds`: comparing, and configured lengths.
* `WordLength.exists_since?`: the age of any two instants fits.
* `age_decisions_exact`: the three decisions.
-/

namespace MarketCache

/-! ## Lengths of time in words -/

/-- A result in a signed word that holds the numbers from `-limit` up to `limit`, if it fits. -/
def word? (limit z : Int) : Option Int := if -limit ≤ z ∧ z < limit then some z else none

/-- A result in a word of 64 bits. -/
def word64? : Int → Option Int := word? 9223372036854775808

/-- A result in a word of 32 bits. -/
def word32? : Int → Option Int := word? 2147483648

theorem word64?_eq_some {z : Int} (hlow : -9223372036854775808 ≤ z)
    (hhigh : z < 9223372036854775808) : word64? z = some z := if_pos ⟨hlow, hhigh⟩

theorem word32?_eq_some {z : Int} (hlow : -2147483648 ≤ z) (hhigh : z < 2147483648) :
    word32? z = some z := if_pos ⟨hlow, hhigh⟩

/-- A length of time in words: whole seconds, rounded down, and the nanoseconds beyond them. -/
structure WordLength where
  seconds : Int
  nanos : Int
deriving DecidableEq, Repr

namespace WordLength

/-- The length of time itself. -/
def exact (l : WordLength) : Duration := ⟨l.seconds * 1000000000 + l.nanos⟩

/-- Whether the nanoseconds are less than a second, and not negative. -/
def IsNormal (l : WordLength) : Prop := 0 ≤ l.nanos ∧ l.nanos < 1000000000

/-- The length of some seconds and nanoseconds, unless it is beyond the longest length of time,
    forward or backward. -/
def ofParts? (seconds nanos : Int) : Option WordLength :=
  if -Duration.longest.nanos ≤ seconds * 1000000000 + nanos ∧
      seconds * 1000000000 + nanos ≤ Duration.longest.nanos then
    some ⟨seconds, nanos⟩
  else none

/-- The longest length of time. -/
def longest : WordLength := ⟨9223372036854775, 807000000⟩

/-- A configured length: the longest one where the seconds do not fit into a word, or are no
    length of time. -/
def ofSeconds (n : UInt64) : WordLength :=
  ((word64? n.toNat).bind fun seconds => ofParts? seconds 0).getD longest

/-- The sum of two lengths, with a second carried over from the nanoseconds. -/
def add? (l m : WordLength) : Option WordLength := do
  let seconds ← word64? (l.seconds + m.seconds)
  let nanos ← word32? (l.nanos + m.nanos)
  if nanos < 1000000000 then ofParts? seconds nanos
  else ofParts? (← word64? (seconds + 1)) (nanos - 1000000000)

/-- The time from the day of `u` to the day of `t`. -/
def ofDays? (t u : Instant) : Option WordLength := do
  let days ← word64? (t.second / 86400 - u.second / 86400)
  ofParts? (← word64? (days * 86400)) 0

/-- The time from the time of day of `u` to that of `t`. -/
def ofTimesOfDay? (t u : Instant) : Option WordLength := do
  let seconds ← word64? (t.timeOfDay - u.timeOfDay)
  let seconds ← word64? (seconds + Instant.leapsBetween t u)
  let nanos ← word64? (t.nano - u.nano)
  ofParts? (← word64? (seconds + nanos / 1000000000)) (nanos % 1000000000)

/-- The time from `u` to `t`. -/
def since? (t u : Instant) : Option WordLength := do
  (← ofDays? t u).add? (← ofTimesOfDay? t u)

/-- Whether one length is shorter than another, by the seconds and then by the nanoseconds. -/
def lt (l m : WordLength) : Bool :=
  l.seconds < m.seconds || (l.seconds == m.seconds && l.nanos < m.nanos)

/-- Whether the time from `a` to `b` is shorter than a configured length. -/
def isWithin? (a : Instant) (n : UInt64) (b : Instant) : Option Bool :=
  (since? b a).map (·.lt (ofSeconds n))

variable {l m : WordLength} {t u : Instant}

theorem lt_iff (hl : l.IsNormal) (hm : m.IsNormal) : l.lt m = true ↔ l.exact < m.exact := by
  obtain ⟨hl0, hl1⟩ := hl
  obtain ⟨hm0, hm1⟩ := hm
  rw [Duration.lt_def]
  simp only [lt, exact, Bool.or_eq_true, Bool.and_eq_true, decide_eq_true_eq, beq_iff_eq]
  omega

theorem ofParts?_eq_some {seconds nanos : Int}
    (hlow : -9223372036854775807000000 ≤ seconds * 1000000000 + nanos)
    (hhigh : seconds * 1000000000 + nanos ≤ 9223372036854775807000000) :
    ofParts? seconds nanos = some ⟨seconds, nanos⟩ := if_pos ⟨hlow, hhigh⟩

theorem ofParts?_eq_none {seconds nanos : Int}
    (h : 9223372036854775807000000 < seconds * 1000000000 + nanos) :
    ofParts? seconds nanos = none := if_neg fun hrange => Int.not_lt.mpr hrange.2 h

/-! ## Configured lengths -/

/-- Where a configured length is exact. -/
theorem ofSeconds_of_le {n : UInt64} (h : n.toNat ≤ 9223372036854775) :
    ofSeconds n = ⟨n.toNat, 0⟩ := by
  unfold ofSeconds
  rw [word64?_eq_some (by omega) (by omega), Option.bind_some,
    ofParts?_eq_some (by omega) (by omega),
    Option.getD_some]

/-- Where a configured length is cut down: beyond the lengths of time, or already beyond the
    word. -/
theorem ofSeconds_of_lt {n : UInt64} (h : 9223372036854775 < n.toNat) :
    ofSeconds n = longest := by
  unfold ofSeconds word64? word?
  split
  · rw [Option.bind_some, ofParts?_eq_none (by omega), Option.getD_none]
  · rw [Option.bind_none, Option.getD_none]

theorem isNormal_whole (seconds : Int) : IsNormal ⟨seconds, 0⟩ :=
  ⟨Int.le_refl 0, (by decide : (0 : Int) < 1000000000)⟩

theorem isNormal_ofSeconds (n : UInt64) : (ofSeconds n).IsNormal := by
  rcases Nat.lt_or_ge 9223372036854775 n.toNat with hlong | hshort
  · rw [ofSeconds_of_lt hlong]
    exact ⟨by decide, by decide⟩
  · rw [ofSeconds_of_le hshort]
    exact isNormal_whole _

/-- A configured length in words is the configured length. -/
theorem exact_ofSeconds (n : UInt64) : (ofSeconds n).exact = .ofSeconds n := by
  rcases Nat.lt_or_ge 9223372036854775 n.toNat with hlong | hshort
  · rw [ofSeconds_of_lt hlong, Duration.ofSeconds, if_neg (Nat.not_le.mpr hlong)]
    rfl
  · rw [ofSeconds_of_le hshort, Duration.ofSeconds_of_le hshort, exact, Int.add_zero]

/-! ## Ages -/

/-- The sum of two lengths of which neither is longer than half the longest one. -/
theorem exists_add? (hl : l.IsNormal) (hm : m.IsNormal)
    (hlrange : -4000000000000000 ≤ l.seconds ∧ l.seconds ≤ 4000000000000000)
    (hmrange : -4000000000000000 ≤ m.seconds ∧ m.seconds ≤ 4000000000000000) :
    ∃ sum, l.add? m = some sum ∧ sum.IsNormal ∧
      sum.exact.nanos = l.exact.nanos + m.exact.nanos := by
  obtain ⟨hl0, hl1⟩ := hl
  obtain ⟨hm0, hm1⟩ := hm
  have hseconds : word64? (l.seconds + m.seconds) = some (l.seconds + m.seconds) :=
    word64?_eq_some (by omega) (by omega)
  have hnanos : word32? (l.nanos + m.nanos) = some (l.nanos + m.nanos) :=
    word32?_eq_some (by omega) (by omega)
  have hcarried : word64? (l.seconds + m.seconds + 1) = some (l.seconds + m.seconds + 1) :=
    word64?_eq_some (by omega) (by omega)
  simp only [add?, hseconds, hnanos, hcarried, Option.bind_eq_bind, Option.bind_some]
  by_cases hcarry : l.nanos + m.nanos < 1000000000
  · rw [if_pos hcarry, ofParts?_eq_some (by omega) (by omega)]
    refine ⟨_, rfl, ⟨Int.add_nonneg hl0 hm0, hcarry⟩, ?_⟩
    simp only [exact]
    omega
  · rw [if_neg hcarry, ofParts?_eq_some (by omega) (by omega)]
    refine ⟨_, rfl, ⟨?_, ?_⟩, ?_⟩ <;> simp only [exact] <;> omega

/-- The time between two days fits. -/
theorem ofDays?_eq (ht : t.Representable) (hu : u.Representable) :
    ofDays? t u = some ⟨(t.second / 86400 - u.second / 86400) * 86400, 0⟩ := by
  obtain ⟨htlow, hthigh, -⟩ := ht
  obtain ⟨hulow, huhigh, -⟩ := hu
  unfold Instant.earliestSecond Instant.latestSecond at *
  have hdays := word64?_eq_some (z := t.second / 86400 - u.second / 86400) (by omega) (by omega)
  have hseconds := word64?_eq_some (z := (t.second / 86400 - u.second / 86400) * 86400)
    (by omega) (by omega)
  simp only [ofDays?, hdays, hseconds, Option.bind_eq_bind, Option.bind_some]
  exact ofParts?_eq_some (by omega) (by omega)

/-- The time between two times of day fits, and is two days at most. -/
theorem exists_ofTimesOfDay? (ht : t.nano < 2000000000) (hu : u.nano < 2000000000) :
    ∃ between, ofTimesOfDay? t u = some between ∧ between.IsNormal ∧
      (-172800 ≤ between.seconds ∧ between.seconds ≤ 172800) ∧
      between.exact.nanos =
        (t.timeOfDay - u.timeOfDay + Instant.leapsBetween t u) * 1000000000 +
          ((t.nano : Int) - u.nano) := by
  have hleaps : -1 ≤ Instant.leapsBetween t u ∧ Instant.leapsBetween t u ≤ 1 := by
    unfold Instant.leapsBetween
    split
    · omega
    · split <;> omega
  have hclock : -86400 < t.timeOfDay - u.timeOfDay ∧ t.timeOfDay - u.timeOfDay < 86400 := by
    unfold Instant.timeOfDay
    omega
  unfold ofTimesOfDay?
  generalize t.timeOfDay - u.timeOfDay = clock at *
  generalize Instant.leapsBetween t u = leaps at *
  have hseconds := word64?_eq_some (z := clock) (by omega) (by omega)
  have hleaping := word64?_eq_some (z := clock + leaps) (by omega) (by omega)
  have hnanos := word64?_eq_some (z := (t.nano : Int) - u.nano) (by omega) (by omega)
  have hcarried := word64?_eq_some (z := clock + leaps + ((t.nano : Int) - u.nano) / 1000000000)
    (by omega) (by omega)
  simp only [hseconds, hleaping, hnanos, hcarried, Option.bind_eq_bind, Option.bind_some]
  rw [ofParts?_eq_some (by omega) (by omega)]
  refine ⟨_, rfl, ⟨?_, ?_⟩, ⟨?_, ?_⟩, ?_⟩ <;> simp only [exact] <;> omega

/-- The time between two instants fits, in every step and also if a leap second is under way, and
    is the exact one. -/
theorem exists_since? (ht : t.Representable) (hu : u.Representable) :
    ∃ age, since? t u = some age ∧ age.IsNormal ∧ age.exact = t.since u := by
  obtain ⟨between, hbetween, hnormal, hshort, hclock⟩ :=
    exists_ofTimesOfDay? ht.2.2 hu.2.2
  have hdays := ofDays?_eq ht hu
  obtain ⟨htlow, hthigh, -⟩ := ht
  obtain ⟨hulow, huhigh, -⟩ := hu
  unfold Instant.earliestSecond Instant.latestSecond at *
  obtain ⟨age, hage, hagenormal, hsum⟩ :=
    exists_add? (l := ⟨(t.second / 86400 - u.second / 86400) * 86400, 0⟩) (m := between)
      (isNormal_whole _) hnormal ⟨by dsimp only; omega, by dsimp only; omega⟩
      ⟨by omega, by omega⟩
  refine ⟨age, ?_, hagenormal, ?_⟩
  · rw [since?, hdays, hbetween]
    exact hage
  · -- the days and the times of day make up the seconds
    rw [hclock] at hsum
    simp only [exact, Instant.timeOfDay] at hsum
    simp only [exact, Instant.since, Duration.mk.injEq]
    omega

/-- The decision by words is there, and is the exact one. -/
theorem isWithin?_eq {a b : Instant} (ha : a.Representable) (hb : b.Representable) (n : UInt64) :
    isWithin? a n b = some (isFresh a n b) := by
  obtain ⟨age, hage, hnormal, hexact⟩ := exists_since? hb ha
  rw [isWithin?, hage, Option.map_some, Option.some_inj, Bool.eq_iff_iff,
    lt_iff hnormal (isNormal_ofSeconds n), hexact, exact_ofSeconds, isFresh_iff]

end WordLength

/-! ## Decisions -/

/-- Whether a snapshot of `a` is fresh at `b`, whether the gate that opened at `a` opens again at
    `b`, and whether a pass is due at `b` after one at `a` is decided by the exact time from `a`
    to `b` in nanoseconds, for every configured length and for any two readings in either order;
    the computation in words comes to a decision, and to that one; and a snapshot is fresh exactly
    when the gate stays shut and no pass is due. -/
theorem age_decisions_exact {α : Type} {a b : Instant} (ha : a.IsReading) (hb : b.IsReading)
    (n : UInt64) (g : ThrottleGuard) (key : String) (w : WriteBack α)
    (hinterval : w.flushIntervalSecs = n) (hlast : w.lastFlushAt = a) :
    (isFresh a n b = true ↔ b.nanos - a.nanos < n.toNat * 1000000000) ∧
      ((g.markFired key a).shouldFire key n b = true ↔
        (n.toNat : Int) * 1000000000 ≤ b.nanos - a.nanos) ∧
      ((w.takeDue? b).isSome = true ↔ (n.toNat : Int) * 1000000000 ≤ b.nanos - a.nanos) ∧
      WordLength.isWithin? a n b = some (isFresh a n b) ∧
      (g.markFired key a).shouldFire key n b = !isFresh a n b ∧
      (w.takeDue? b).isSome = !isFresh a n b := by
  have hexact : Duration.ofSeconds n ≤ b.since a ↔
      (n.toNat : Int) * 1000000000 ≤ b.nanos - a.nanos :=
    Instant.ofSeconds_le_since_iff hb.1 ha.1 hb.2 ha.2 n
  have hfresh : isFresh a n b = !decide (Duration.ofSeconds n ≤ b.since a) := by
    rw [isFresh, ← decide_not]
    exact decide_eq_decide.mpr Int.not_le.symm
  have hfire : (g.markFired key a).shouldFire key n b =
      decide (Duration.ofSeconds n ≤ b.since a) := by
    rw [ThrottleGuard.shouldFire, ThrottleGuard.record?_markFired, if_pos rfl]
  have hdue : (w.takeDue? b).isSome = decide (Duration.ofSeconds n ≤ b.since a) := by
    unfold WriteBack.takeDue? WriteBack.isDue
    rw [hinterval, hlast]
    split
    · next hover => exact hover.symm
    · next hover => exact (Bool.eq_false_iff.mpr hover).symm
  refine ⟨?_, ?_, ?_, WordLength.isWithin?_eq ha.1 hb.1 n, ?_, ?_⟩
  · rw [hfresh]
    simp only [hexact, Bool.not_eq_true', decide_eq_false_iff_not, Int.not_le]
  · rw [hfire, decide_eq_true_iff, hexact]
  · rw [hdue, decide_eq_true_iff, hexact]
  · rw [hfire, hfresh, Bool.not_not]
  · rw [hdue, hfresh, Bool.not_not]

/-- The earliest instant. -/
def Instant.earliest : Instant := ⟨earliestSecond, 0⟩

/-- From the earliest instant to the latest one: the longest age there is ends one window of whole
    seconds and not the next, which is far from where windows are cut down. -/
theorem age_decisions_exact_widest :
    (Instant.earliest.IsReading ∧ Instant.latest.IsReading) ∧
      Instant.latest.nanos - Instant.earliest.nanos = 16544868105599999999999 ∧
      isFresh .earliest 16544868105600 .latest = true ∧
      WordLength.isWithin? .earliest 16544868105600 .latest = some true ∧
      (ThrottleGuard.empty.markFired "k" .earliest).shouldFire "k" 16544868105599 .latest = true ∧
      isFresh .earliest 18446744073709551615 .latest = true ∧
      ((WriteBack.start 18446744073709551615 60 .earliest : WriteBack Unit).takeDue? .latest).isSome
        = false := by
  have hreading : Instant.earliest.IsReading ∧ Instant.latest.IsReading := by decide
  have hspan : Instant.latest.nanos - Instant.earliest.nanos = 16544868105599999999999 := by decide
  have hnext := age_decisions_exact hreading.1 hreading.2 16544868105600 .empty "k"
    (WriteBack.start 16544868105600 60 .earliest : WriteBack Unit) rfl rfl
  have hlast := age_decisions_exact hreading.1 hreading.2 16544868105599 .empty "k"
    (WriteBack.start 16544868105599 60 .earliest : WriteBack Unit) rfl rfl
  have hlong := age_decisions_exact hreading.1 hreading.2 18446744073709551615 .empty "k"
    (WriteBack.start 18446744073709551615 60 .earliest : WriteBack Unit) rfl rfl
  rw [hspan] at hnext hlast hlong
  have hfresh := hnext.1.mpr (by decide)
  have hfresh' := hlong.1.mpr (by decide)
  refine ⟨hreading, hspan, hfresh, ?_, hlast.2.1.mpr (by decide), hfresh', ?_⟩
  · rw [hnext.2.2.2.1, hfresh]
  · rw [hlong.2.2.2.2.2, hfresh']
    rfl

end MarketCache
