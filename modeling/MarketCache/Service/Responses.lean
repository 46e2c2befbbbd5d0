import MarketCache.Cache.Lookup
import MarketCache.Json.Basic
import MarketCache.Stats
import MarketCache.Time.Timestamp
import MarketCache.WriteBack.Basic

/-!
# Responses of the service

The JSON bodies of answers, members in the order in which they are written.
-/

namespace MarketCache

/-- The answer to a lookup. -/
def Lookup.toJson (l : Lookup Json) : Json :=
  .object [("key", .string l.key), ("from_cache", .bool l.fromCache),
    ("captured_at", .string l.capturedAt.timestamp), ("data", l.payload)]

/-- What became of the entries of some passes. -/
def FlushReport.toJson (r : FlushReport) : Json :=
  .object [("attempted", .count r.attempted), ("written", .count r.written),
    ("failed", .count r.failed)]

/-- The counters of a cache. -/
def CacheStats.members (s : CacheStats) : List (String × Json) :=
  [("hot_hits", .count s.hotHits), ("durable_hits", .count s.durableHits),
    ("misses", .count s.misses), ("durable_errors", .count s.durableErrors),
    ("flushes", .count s.flushes), ("flushed_entries", .count s.flushedEntries),
    ("flush_failures", .count s.flushFailures), ("hot_entries", .count s.hotEntries),
    ("pending_writes", .count s.pendingWrites)]

/-- The counters of a cache. -/
def CacheStats.toJson (s : CacheStats) : Json := .object s.members

/-- The counters of a cache and its hit rate. -/
def CacheStats.toReport (s : CacheStats) : Json :=
  .object (s.members ++ [("hit_rate", .float s.hitRate)])

namespace Response

/-- Whether the hot entry of a key was there to be dropped. -/
def invalidated (key : String) (removed : Bool) : Json :=
  .object [("key", .string key), ("removed", .bool removed)]

/-- What became of the entries of both caches. -/
def flushed (news quotes : FlushReport) : Json :=
  .object [("news", news.toJson), ("quotes", quotes.toJson),
    ("total", (news.merge quotes).toJson)]

/-- Whether a notification may be sent now. -/
def throttled (key : String) (fire : Bool) (windowSecs : UInt64) : Json :=
  .object [("key", .string key), ("fire", .bool fire), ("window_secs", .word windowSecs)]

/-- The gate has forgotten a key. -/
def cleared (key : String) : Json :=
  .object [("message", .string ("Throttle for '" ++ key ++ "' cleared")), ("key", .string key)]

/-- The statistics of both caches, and how many keys the gate remembers. -/
def stats (news quotes : CacheStats) (throttleRecords : Nat) : Json :=
  .object [("news", news.toReport), ("quotes", quotes.toReport),
    ("throttle_records", .count throttleRecords)]

/-- The service is up at `now`. -/
def healthy (now : Instant) : Json :=
  .object [("status", .string "healthy"), ("timestamp", .string now.offsetTimestamp)]

end Response

end MarketCache
