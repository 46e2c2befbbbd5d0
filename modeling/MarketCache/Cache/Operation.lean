import MarketCache.Cache.Basic

/-!
# Operations of a cache

Lookups and flushes that nothing interrupts but the call of the provider. A lookup has two
parts: it consults the tiers, and if neither has a fresh entry it goes on with what the
provider answers. Whatever the answer, a pass that is due then starts; with passes in the
background its batch is handed out instead of being written.

The lookup's own time and the store's clock are two different things here: a lookup is made
as of a given instant, and the store expires its values by the clock.

Main definitions:
* `TieredCache.consult`, `TieredCache.conclude`: the two parts of a lookup.
* `TieredCache.lookup`: both, with a provider that answers at once.
* `TieredCache.flush`: writes all that waits.
-/

namespace MarketCache

/-- How far a lookup gets without the provider. -/
inductive Consulted (α : Type) where
  /-- A tier has a fresh entry. -/
  | hit (e : Entry α)
  /-- The provider has to be asked. -/
  | miss (key : String)

/-- A pass that is to run in the background, as the batch that it is to write. -/
abbrev Detached (α : Type) := Option (List (PendingWrite α))

namespace TieredCache

variable {α σ ε φ : Type} [Payload α] [DurableStore σ]

/-- Asks the tiers about a key as of `now`. -/
def consultKey (c : TieredCache α) (key : String) (now clock : Instant) (store : σ) :
    Consulted α × TieredCache α × σ :=
  match c.checkHot key now with
  | (some e, c) => (.hit e, c, store)
  | (none, c) =>
    let (r, store) := DurableStore.get store clock key
    match c.checkDurable (.ofBytes r) now with
    | (some e, c) => (.hit e, c, store)
    | (none, c) => (.miss key, c, store)

/-- The first part of a lookup of a query as of `now`. -/
def consult (c : TieredCache α) (q : LogicalQuery) (now clock : Instant) (store : σ) :
    Consulted α × TieredCache α × σ :=
  c.consultKey (c.keyFor q) now clock store

/-- Starts a pass if one is due at `now`. -/
def afterRequest (c : TieredCache α) (now clock : Instant) (store : σ) :
    Detached α × TieredCache α × σ :=
  match c.takeDue? now with
  | none => (none, c, store)
  | some (batch, c) =>
    if c.backgroundFlush then (some batch, c, store)
    else
      let (_, w, store) := c.writeBack.persist batch clock store
      (none, { c with writeBack := w }, store)

/-- What is kept of the provider's answer, and the answer to the lookup. -/
def keepFetched (c : TieredCache α) (key : String) (now : Instant) :
    Except ε α → Except ε (Lookup α) × TieredCache α
  | .ok payload =>
    let e : Entry α := ⟨key, payload, now⟩
    (.ok (.fetched e), c.storeFetched e)
  | .error err => (.error err, c)

/-- The second part of a lookup that missed, given the provider's answer. -/
def conclude (c : TieredCache α) (key : String) (now clock : Instant) (outcome : Except ε α)
    (store : σ) : Except ε (Lookup α) × Detached α × TieredCache α × σ :=
  let (answer, c) := c.keepFetched key now outcome
  let (detached, c, store) := c.afterRequest now clock store
  (answer, detached, c, store)

/-- A lookup as of `now` with a provider that answers at once; the provider is asked only if
    neither tier has a fresh entry. -/
def lookup (c : TieredCache α) (q : LogicalQuery) (now clock : Instant)
    (fetch : φ → Except ε α × φ) (provider : φ) (store : σ) :
    Except ε (Lookup α) × Detached α × TieredCache α × σ × φ :=
  match c.consult q now clock store with
  | (.hit e, c, store) =>
    let (detached, c, store) := c.afterRequest now clock store
    (.ok (.cached e), detached, c, store, provider)
  | (.miss key, c, store) =>
    let (outcome, provider) := fetch provider
    let (answer, detached, c, store) := c.conclude key now clock outcome store
    (answer, detached, c, store, provider)

/-- Writes a batch that was taken and counts what became of it. -/
def persist (c : TieredCache α) (batch : List (PendingWrite α)) (clock : Instant) (store : σ) :
    Option FlushReport × TieredCache α × σ :=
  let (r, w, store) := c.writeBack.persist batch clock store
  (r, { c with writeBack := w }, store)

/-- Writes all that waits, no pass being under way. -/
def flush (c : TieredCache α) (now clock : Instant) (store : σ) :
    Option FlushReport × TieredCache α × σ :=
  let (batch, c) := c.takeAll now
  c.persist batch clock store

end TieredCache

end MarketCache
