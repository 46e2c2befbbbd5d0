/-!
# Statistics

The counters of one cache, and the share of lookups that were answered from its tiers.
-/

namespace MarketCache

/-- The counters of one cache. -/
structure CacheStats where
  /-- Lookups answered from the hot tier. -/
  hotHits : Nat
  /-- Lookups answered from the durable tier. -/
  durableHits : Nat
  /-- Lookups that asked the provider. -/
  misses : Nat
  /-- Reads of the durable tier that failed. -/
  durableErrors : Nat
  /-- Write-back passes taken. -/
  flushes : Nat
  /-- Entries that the durable tier accepted. -/
  flushedEntries : Nat
  /-- Entries discarded after a failed encoding or write. -/
  flushFailures : Nat
  /-- Entries in the hot tier. -/
  hotEntries : Nat
  /-- Entries waiting for a pass. -/
  pendingWrites : Nat
deriving DecidableEq, Repr, Inhabited

namespace CacheStats

/-- All counters at zero. -/
def zero : CacheStats := ⟨0, 0, 0, 0, 0, 0, 0, 0, 0⟩

def recordHotHit (s : CacheStats) : CacheStats := { s with hotHits := s.hotHits + 1 }

def recordDurableHit (s : CacheStats) : CacheStats := { s with durableHits := s.durableHits + 1 }

def recordMiss (s : CacheStats) : CacheStats := { s with misses := s.misses + 1 }

def recordDurableError (s : CacheStats) : CacheStats :=
  { s with durableErrors := s.durableErrors + 1 }

/-- Hits of either tier as a share of all lookups, zero before the first lookup. Counts are
    kept modulo `2 ^ 64`. -/
def hitRate (s : CacheStats) : Float :=
  let hits := UInt64.ofNat (s.hotHits + s.durableHits)
  let total := hits + UInt64.ofNat s.misses
  if total = 0 then 0.0 else hits.toFloat / total.toFloat

end CacheStats

end MarketCache
