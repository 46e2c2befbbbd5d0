import MarketCache.Entry

/-!
# Answers of a cache
-/

namespace MarketCache

/-- The answer to a lookup. -/
structure Lookup (α : Type) where
  key : String
  payload : α
  /-- Whether a tier answered, and not the provider. -/
  fromCache : Bool
  capturedAt : Instant
deriving DecidableEq, BEq, Repr

namespace Lookup

variable {α : Type}

/-- The answer with an entry from a tier. -/
def cached (e : Entry α) : Lookup α := ⟨e.key, e.payload, true, e.capturedAt⟩

/-- The answer with an entry that was just fetched. -/
def fetched (e : Entry α) : Lookup α := ⟨e.key, e.payload, false, e.capturedAt⟩

end Lookup

end MarketCache
