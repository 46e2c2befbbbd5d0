import MarketCache.Time.Instant

/-!
# Cache entries

A snapshot of an answer: the key of its query, the payload, and the instant at which it was
fetched from the provider.
-/

namespace MarketCache

/-- A snapshot of the answer to the query with a key. -/
structure Entry (α : Type) where
  key : String
  payload : α
  capturedAt : Instant
deriving DecidableEq, BEq, Repr

/-- The time that has passed since the snapshot was taken. -/
def Entry.age {α : Type} (e : Entry α) (now : Instant) : Duration := now.since e.capturedAt

end MarketCache
