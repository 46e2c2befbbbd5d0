/-!
# Durations

Lengths of time, counted in nanoseconds. Configured lengths are whole seconds; one that
is longer than the longest length of time stands for that length.

Results:
* `ofSeconds_of_le`: up to 9223372036854775 seconds the length is exact.
* `ofSeconds_nonneg`: no configured length points into the past.
-/

namespace MarketCache

/-- A length of time in nanoseconds; negative lengths point into the past. -/
structure Duration where
  nanos : Int
deriving DecidableEq, Repr, Inhabited

namespace Duration

/-- The longest length of time: `2 ^ 63 - 1` milliseconds. -/
def longest : Duration := ⟨9223372036854775807 * 1000000⟩

/-- A length of `n` seconds, or the longest length where that is shorter. -/
def ofSeconds (n : UInt64) : Duration :=
  if n.toNat ≤ 9223372036854775 then ⟨n.toNat * 1000000000⟩ else longest

/-- The whole seconds of a length, rounded toward zero. -/
def wholeSeconds (d : Duration) : Int := d.nanos.tdiv 1000000000

/-- The nanoseconds of a length beyond its whole seconds, with the sign of the length. -/
def subNanos (d : Duration) : Int := d.nanos.tmod 1000000000

instance : LE Duration := ⟨fun a b => a.nanos ≤ b.nanos⟩

instance : LT Duration := ⟨fun a b => a.nanos < b.nanos⟩

instance (a b : Duration) : Decidable (a ≤ b) := inferInstanceAs (Decidable (a.nanos ≤ b.nanos))

instance (a b : Duration) : Decidable (a < b) := inferInstanceAs (Decidable (a.nanos < b.nanos))

theorem le_def {a b : Duration} : a ≤ b ↔ a.nanos ≤ b.nanos := Iff.rfl

theorem lt_def {a b : Duration} : a < b ↔ a.nanos < b.nanos := Iff.rfl

theorem ofSeconds_of_le {n : UInt64} (h : n.toNat ≤ 9223372036854775) :
    ofSeconds n = ⟨n.toNat * 1000000000⟩ := by
  simp [ofSeconds, h]

/-- A configured length never points into the past. -/
theorem ofSeconds_nonneg (n : UInt64) : 0 ≤ (ofSeconds n).nanos := by
  unfold ofSeconds
  split
  · simp only; omega
  · decide

end Duration

end MarketCache
