import MarketCache.Cache.Lookup
import MarketCache.Cache.Settings
import MarketCache.Entry.Codec
import MarketCache.Freshness
import MarketCache.HotTier
import MarketCache.Query.Key
import MarketCache.Store.Basic
import MarketCache.WriteBack.Pass

/-!
# Tiered caches

One logical cache: a namespace for its keys, a freshness policy, a hot tier, a write-back and
counters. The durable store is shared with other caches and not part of it.

This module has the steps that nothing can interrupt; an operation of the cache is a
sequence of them, with reads and writes of the store and the call of the provider in
between.

Main definitions:
* `TieredCache.checkHot`, `TieredCache.checkDurable`: the two tiers are asked in turn.
* `TieredCache.storeFetched`: the provider's answer is kept.
* `TieredCache.takeDue?`, `TieredCache.takeAll`, `TieredCache.settle`: write-back.
* `TieredCache.invalidate`, `TieredCache.stats`.
-/

namespace MarketCache

/-- One logical cache. -/
structure TieredCache (α : Type) where
  /-- The namespace of its keys. -/
  space : String
  policy : FreshnessPolicy
  /-- Whether due passes run in the background. -/
  backgroundFlush : Bool
  hot : HotTier α
  writeBack : WriteBack α
  /-- Lookups so far; the counters of the hot tier and of the write-back stay at zero here. -/
  counters : CacheStats

/-- What the durable tier has to say about a key. -/
inductive DurableRead (α : Type) where
  | absent
  | found (e : Entry α)
  /-- The read was refused, or what was read is no entry. -/
  | failed
deriving Repr

/-- What a read of the store amounts to. -/
def DurableRead.ofBytes {α : Type} [Payload α] :
    Except StoreError (Option Bytes) → DurableRead α
  | .error _ => .failed
  | .ok none => .absent
  | .ok (some bs) =>
    match Entry.decode bs with
    | .ok e => .found e
    | .error _ => .failed

namespace TieredCache

variable {α : Type}

/-- An empty cache whose first pass is due one flush interval after `startedAt`. -/
def start (space : String) (settings : CacheSettings) (startedAt : Instant) : TieredCache α where
  space := space
  policy := ⟨settings.pollingIntervalSecs⟩
  backgroundFlush := settings.backgroundFlush
  hot := HotTier.empty
  writeBack := WriteBack.start settings.flushIntervalSecs settings.durableTtlSecs startedAt
  counters := CacheStats.zero

/-- The key of a query in this cache. -/
def keyFor (c : TieredCache α) (q : LogicalQuery) : String := q.key c.space

/-- The hot entry of a key, if it is fresh at `now`; it then counts as a hit. -/
def checkHot (c : TieredCache α) (key : String) (now : Instant) :
    Option (Entry α) × TieredCache α :=
  match c.hot.get? key with
  | some e =>
    if c.policy.isFresh e now then (some e, { c with counters := c.counters.recordHotHit })
    else (none, c)
  | none => (none, c)

/-- The durable entry, if it is fresh at `now`; it then counts as a hit and becomes the hot
    entry of its key. Everything else is a miss, and a failed read is counted besides. -/
def checkDurable (c : TieredCache α) (r : DurableRead α) (now : Instant) :
    Option (Entry α) × TieredCache α :=
  match r with
  | .found e =>
    if c.policy.isFresh e now then
      (some e, { c with hot := c.hot.set e, counters := c.counters.recordDurableHit })
    else (none, { c with counters := c.counters.recordMiss })
  | .absent => (none, { c with counters := c.counters.recordMiss })
  | .failed => (none, { c with counters := c.counters.recordDurableError.recordMiss })

/-- The cache with an entry that was fetched: it is hot, and waits to be written. -/
def storeFetched (c : TieredCache α) (e : Entry α) : TieredCache α :=
  { c with hot := c.hot.set e, writeBack := c.writeBack.record e e.capturedAt }

/-- The batch of a pass, if one is due at `now`. -/
def takeDue? (c : TieredCache α) (now : Instant) :
    Option (List (PendingWrite α) × TieredCache α) :=
  (c.writeBack.takeDue? now).map fun (batch, w) => (batch, { c with writeBack := w })

/-- The batch of a pass, due or not. -/
def takeAll (c : TieredCache α) (now : Instant) : List (PendingWrite α) × TieredCache α :=
  let (batch, w) := c.writeBack.takeAll now
  (batch, { c with writeBack := w })

/-- Counts what became of a batch. -/
def settle (c : TieredCache α) (r : FlushReport) : TieredCache α :=
  { c with writeBack := c.writeBack.settle r }

/-- Drops the hot entry of a query, and tells whether there was one. The durable tier and the
    entries that wait for it stay as they are. -/
def invalidate (c : TieredCache α) (q : LogicalQuery) : Bool × TieredCache α :=
  let key := c.keyFor q
  (c.hot.contains key, { c with hot := c.hot.clear key })

/-- All counters. -/
def stats (c : TieredCache α) : CacheStats :=
  c.writeBack.fillStats { c.counters with hotEntries := c.hot.size }

end TieredCache

end MarketCache
