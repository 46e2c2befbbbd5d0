import MarketCache.Cache.Operation
import MarketCache.Provider.Basic
import MarketCache.Throttle

/-!
# The service

Two caches over one durable store, the gate for notifications and the provider: all that
requests are answered from. A pass that a lookup hands to the background waits here until it
is run.

Main definitions:
* `Service.start`: the service before the first request.
* `Service.lookup`, `Service.flush`, `Service.runPasses`: what its caches do.
-/

namespace MarketCache

/-- A service over a store `σ` and a provider `π`. -/
structure Service (σ π : Type) where
  news : TieredCache Json
  quotes : TieredCache Json
  gate : ThrottleGuard
  store : σ
  provider : π
  /-- The batches of passes in the background that are yet to run, the oldest first. -/
  detached : List (Resource × List (PendingWrite Json))

namespace Service

variable {σ π : Type}

/-- A service that has answered nothing yet. The names of the resources are the namespaces of
    the caches. -/
def start (news quotes : CacheSettings) (startedAt : Instant) (store : σ) (provider : π) :
    Service σ π where
  news := .start Resource.news.name news startedAt
  quotes := .start Resource.quotes.name quotes startedAt
  gate := .empty
  store := store
  provider := provider
  detached := []

/-- The cache of a resource. -/
def cache (s : Service σ π) : Resource → TieredCache Json
  | .news => s.news
  | .quotes => s.quotes

/-- The service with another cache of a resource. -/
def setCache (s : Service σ π) (c : TieredCache Json) : Resource → Service σ π
  | .news => { s with news := c }
  | .quotes => { s with quotes := c }

variable [DurableStore σ]

/-- Looks a query up as of `now`. -/
def lookup [MarketData π] (s : Service σ π) (r : Resource) (q : LogicalQuery) (now : Instant) :
    Except (List String) (Lookup Json) × Service σ π :=
  let (answer, detached, c, store, provider) :=
    (s.cache r).lookup q now now (MarketData.fetch r q) s.provider s.store
  let s := { s.setCache c r with store, provider }
  (answer, { s with detached := s.detached ++ (detached.map (r, ·)).toList })

/-- Runs the passes in the background to their ends, each after those before it. One that
    breaks the store down leaves the rest of its batch unwritten. -/
def runPasses (s : Service σ π) (now : Instant) : Service σ π :=
  s.detached.foldl
    (fun s (r, batch) =>
      let (_, c, store) := (s.cache r).persist batch now s.store
      { s.setCache c r with store })
    { s with detached := [] }

/-- Writes all that waits in the cache of a resource, unless the store breaks down. -/
def flushCache (s : Service σ π) (r : Resource) (now : Instant) :
    Option FlushReport × Service σ π :=
  let (report, c, store) := (s.cache r).flush now now s.store
  (report, { s.setCache c r with store })

/-- Writes all that waits in both caches, one after the other, once the passes in the background
    have ended. -/
def flush (s : Service σ π) (now : Instant) :
    Option (FlushReport × FlushReport) × Service σ π :=
  match (s.runPasses now).flushCache .news now with
  | (none, s) => (none, s)
  | (some news, s) =>
    let (quotes, s) := s.flushCache .quotes now
    (quotes.map (news, ·), s)

end Service

end MarketCache
