import MarketCache.Proofs.Time.Age
import MarketCache.Store.Memory
import MarketCache.Store.Record

/-!
# When values expire

A value that was put expires its time to live later. The one kind of store counts that in
instants, of which there is a latest one, the other in milliseconds; up to a millisecond before
the expiry, and before the latest instant, the value has not expired for either of them.

Main definitions:
* `Instant.IsReading`: what a clock shows.
* `Instant.Outlasts`: the time for which a value is safe.

Results:
* `Instant.add?_ofSeconds`: when the time to live is over.
* `MemoryStore.lt_expiry`, `Record.lt_expiry`: a value that is safe has not expired.
-/

namespace MarketCache

namespace Instant

/-- Whether a clock can show an instant: it is in range, and no leap second is under way. -/
def IsReading (t : Instant) : Prop := t.Representable ∧ t.isLeap = false

instance (t : Instant) : Decidable t.IsReading := inferInstanceAs (Decidable (_ ∧ _))

/-- Whether what was put at an instant with a time to live has a millisecond of it left at
    `now`, which has to come before the latest instant. -/
def Outlasts (put : Instant) (ttlSecs : UInt64) (now : Instant) : Prop :=
  now.nanos + 1000000 ≤ put.nanos + ttlSecs.toNat * 1000000000 ∧ now < latest

instance (put : Instant) (ttlSecs : UInt64) (now : Instant) :
    Decidable (put.Outlasts ttlSecs now) :=
  inferInstanceAs (Decidable (_ ∧ _))

variable {put now t : Instant} {ttlSecs : UInt64}

/-- What is safe at a reading was safe before. -/
theorem Outlasts.mono (h : put.Outlasts ttlSecs now) (hle : t ≤ now) (ht : t.isLeap = false)
    (hnow : now.isLeap = false) : put.Outlasts ttlSecs t := by
  have hnanos := (le_iff_nanos_le ht hnow).mp hle
  have hlatest := h.2
  refine ⟨by have := h.1; omega, ?_⟩
  rw [lt_def] at hlatest ⊢
  rw [le_def] at hle
  omega

/-- The end of a time to live that began outside leap seconds. -/
theorem add?_ofSeconds (h : put.IsReading) : put.add? (.ofSeconds ttlSecs) =
    if put.second + ttlSecs.toNat ≤ latestSecond then some ⟨put.second + ttlSecs.toNat, put.nano⟩
    else none := by
  have hnano := nano_lt_of_not_isLeap h.2
  have hearly : earliestSecond ≤ put.second := h.1.1
  unfold add? staysInLeap outsideLeap
  simp only [h.2, Bool.false_and, Bool.false_eq_true, if_false]
  by_cases hshort : ttlSecs.toNat ≤ 9223372036854775
  · have hwhole : (Duration.ofSeconds ttlSecs).wholeSeconds = ttlSecs.toNat := by
      rw [Duration.ofSeconds_of_le hshort, Duration.wholeSeconds]
      exact Int.mul_tdiv_cancel _ (by decide)
    have hsub : (Duration.ofSeconds ttlSecs).subNanos = 0 := by
      rw [Duration.ofSeconds_of_le hshort, Duration.subNanos]
      exact Int.mul_tmod_left _ _
    simp only [hwhole, hsub, Int.add_zero]
    rw [show (put.nano : Int) / 1000000000 = 0 by omega,
      show (put.nano : Int) % 1000000000 = put.nano by omega, Int.add_zero, Int.toNat_natCast]
    by_cases hlate : put.second + ttlSecs.toNat ≤ latestSecond
    · rw [if_pos ⟨by omega, hlate⟩, if_pos hlate]
    · rw [if_neg (fun hin => hlate hin.2), if_neg hlate]
  · -- a longer time to live is over after the latest instant
    have hlong : Duration.ofSeconds ttlSecs = .longest := if_neg hshort
    have hwhole : Duration.longest.wholeSeconds = 9223372036854775 := by decide
    have hsub : Duration.longest.subNanos = 807000000 := by decide
    simp only [hlong, hwhole, hsub]
    unfold earliestSecond latestSecond at *
    rw [if_neg (by omega), if_neg (by omega)]

end Instant

variable {put now : Instant} {ttlSecs : UInt64}

theorem MemoryStore.lt_expiry (hput : put.IsReading) (hnow : now.IsReading)
    (h : put.Outlasts ttlSecs now) : now < expiry put ttlSecs := by
  obtain ⟨hearly, hlatest⟩ := h
  have hnano := Instant.nano_lt_of_not_isLeap hput.2
  have hnano' := Instant.nano_lt_of_not_isLeap hnow.2
  rw [expiry, Instant.add?_ofSeconds hput]
  split
  · unfold Instant.nanos at hearly
    rw [Option.getD_some, Instant.lt_def]
    dsimp only
    omega
  · exact hlatest

theorem Record.lt_expiry (hput : put.IsReading) (hnow : now.IsReading)
    (h : put.Outlasts ttlSecs now) : now.millis < expiry put ttlSecs := by
  have hearly := h.1
  have hnano := Instant.nano_lt_of_not_isLeap hput.2
  have hnano' := Instant.nano_lt_of_not_isLeap hnow.2
  have hlast : now.second ≤ Instant.latestSecond := hnow.1.2.1
  rw [expiry, Instant.add?_ofSeconds hput]
  unfold Instant.latestSecond at *
  split
  · next heq =>
    split at heq
    · cases heq
      unfold Instant.nanos at hearly
      unfold Instant.millis
      dsimp only
      omega
    · cases heq
  · unfold latestExpiry Instant.millis
    omega

end MarketCache
