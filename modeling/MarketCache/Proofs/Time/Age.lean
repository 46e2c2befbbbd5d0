import MarketCache.Freshness

/-!
# Ages

Outside leap seconds instants are compared and subtracted like the nanoseconds that they are
away from the epoch. So a snapshot that is stale stays stale, and between a fresh snapshot and
a stale one there is no doubt which was taken later.

Main definition: `Instant.nanos`.

Results:
* `Instant.le_iff_nanos_le`, `Instant.nanos_since`: order and distance.
* `Instant.ofSeconds_le_since_iff`: a configured length against a distance.
* `le_of_isFresh_eq_false`: a stale snapshot was taken in the past.
* `isFresh_eq_false_of_le`: a stale snapshot stays stale.
* `lt_of_isFresh`: a fresh snapshot was taken after a stale one.
-/

namespace MarketCache

namespace Instant

variable {t u : Instant}

/-- Nanoseconds since the epoch; those of a leap second are counted a second time by the second
    that follows it. -/
def nanos (t : Instant) : Int := t.second * 1000000000 + t.nano

theorem nano_lt_of_not_isLeap (h : t.isLeap = false) : t.nano < 1000000000 := by
  unfold isLeap at h
  exact Nat.lt_of_not_le (of_decide_eq_false h)

theorem le_iff_nanos_le (ht : t.isLeap = false) (hu : u.isLeap = false) :
    t ≤ u ↔ t.nanos ≤ u.nanos := by
  have htn := nano_lt_of_not_isLeap ht
  have hun := nano_lt_of_not_isLeap hu
  unfold nanos
  rw [le_def]
  omega

theorem lt_iff_nanos_lt (ht : t.isLeap = false) (hu : u.isLeap = false) :
    t < u ↔ t.nanos < u.nanos := by
  have htn := nano_lt_of_not_isLeap ht
  have hun := nano_lt_of_not_isLeap hu
  unfold nanos
  rw [lt_def]
  omega

theorem nanos_since (ht : t.isLeap = false) (hu : u.isLeap = false) :
    (t.since u).nanos = t.nanos - u.nanos := by
  rw [since_of_not_isLeap ht hu]
  rfl

/-- A configured length is compared as if it were exact: the longest length of time, for which a
    longer one stands, is longer than any distance between two instants. -/
theorem ofSeconds_le_since_iff (ht : t.Representable) (hu : u.Representable)
    (htleap : t.isLeap = false) (huleap : u.isLeap = false) (n : UInt64) :
    Duration.ofSeconds n ≤ t.since u ↔ (n.toNat : Int) * 1000000000 ≤ t.nanos - u.nanos := by
  rw [Duration.le_def, nanos_since htleap huleap]
  by_cases hshort : n.toNat ≤ 9223372036854775
  · rw [Duration.ofSeconds_of_le hshort]
  · have htn := nano_lt_of_not_isLeap htleap
    have hun := nano_lt_of_not_isLeap huleap
    obtain ⟨-, htlate, -⟩ := ht
    obtain ⟨huearly, -, -⟩ := hu
    unfold earliestSecond latestSecond nanos at *
    rw [show Duration.ofSeconds n = .longest from if_neg hshort, Duration.longest]
    dsimp only
    omega

end Instant

variable {a b t u : Instant} {n : UInt64}

theorem isFresh_eq_false_iff :
    isFresh a n t = false ↔ Duration.ofSeconds n ≤ t.since a := by
  rw [← Bool.not_eq_true, isFresh_iff, Duration.lt_def, Duration.le_def, Int.not_lt]

/-- A stale snapshot was taken in the past. -/
theorem le_of_isFresh_eq_false (h : isFresh a n t = false) (ha : a.isLeap = false)
    (ht : t.isLeap = false) : a ≤ t := by
  have hage := isFresh_eq_false_iff.mp h
  have hnonneg := Duration.ofSeconds_nonneg n
  rw [Duration.le_def, Instant.nanos_since ht ha] at hage
  rw [Instant.le_iff_nanos_le ha ht]
  omega

/-- A stale snapshot stays stale. -/
theorem isFresh_eq_false_of_le (h : isFresh a n t = false) (hle : t ≤ u) (ha : a.isLeap = false)
    (ht : t.isLeap = false) (hu : u.isLeap = false) : isFresh a n u = false := by
  have hage := isFresh_eq_false_iff.mp h
  rw [Duration.le_def, Instant.nanos_since ht ha] at hage
  rw [isFresh_eq_false_iff, Duration.le_def, Instant.nanos_since hu ha]
  rw [Instant.le_iff_nanos_le ht hu] at hle
  omega

/-- A fresh snapshot was taken after a stale one. -/
theorem lt_of_isFresh (hb : isFresh b n t = true) (ha : isFresh a n t = false)
    (hleap : t.isLeap = false) (haleap : a.isLeap = false) (hbleap : b.isLeap = false) :
    a < b := by
  have hage := isFresh_eq_false_iff.mp ha
  have hage' := isFresh_iff.mp hb
  rw [Duration.le_def, Instant.nanos_since hleap haleap] at hage
  rw [Duration.lt_def, Instant.nanos_since hleap hbleap] at hage'
  rw [Instant.lt_iff_nanos_lt haleap hbleap]
  omega

end MarketCache
