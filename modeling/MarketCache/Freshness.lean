import MarketCache.Entry

/-!
# Freshness

A snapshot is fresh for as long as it is younger than the polling interval. A snapshot of
exactly that age is stale, and one from the future is fresh.
-/

namespace MarketCache

/-- Whether a snapshot taken at `capturedAt` is fresh at `now`. -/
def isFresh (capturedAt : Instant) (intervalSecs : UInt64) (now : Instant) : Bool :=
  now.since capturedAt < Duration.ofSeconds intervalSecs

/-- How old an entry may be to be served. -/
structure FreshnessPolicy where
  pollingIntervalSecs : UInt64
deriving DecidableEq, Repr

/-- Whether an entry may be served at `now`. -/
def FreshnessPolicy.isFresh {α : Type} (p : FreshnessPolicy) (e : Entry α) (now : Instant) :
    Bool :=
  MarketCache.isFresh e.capturedAt p.pollingIntervalSecs now

theorem isFresh_iff {capturedAt now : Instant} {n : UInt64} :
    isFresh capturedAt n now = true ↔ now.since capturedAt < Duration.ofSeconds n := by
  simp [isFresh]

end MarketCache
