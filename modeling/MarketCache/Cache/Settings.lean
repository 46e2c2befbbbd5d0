/-!
# Cache settings

The cadences of one cache, given by whoever sets it up.
-/

namespace MarketCache

/-- The cadences of one cache. -/
structure CacheSettings where
  /-- The age in seconds from which a snapshot is fetched again. -/
  pollingIntervalSecs : UInt64
  /-- The least number of seconds between two due passes. -/
  flushIntervalSecs : UInt64
  /-- The time to live of durable entries, in seconds. -/
  durableTtlSecs : UInt64
  /-- Whether a due pass runs beside the lookup that found it due. -/
  backgroundFlush : Bool
deriving DecidableEq, Repr

namespace CacheSettings

/-- One day. -/
def defaultDurableTtl : UInt64 := 86400

/-- The settings with the given intervals; durable entries live for a day, and passes run in
    the background. -/
def ofIntervals (pollingIntervalSecs flushIntervalSecs : UInt64) : CacheSettings :=
  ⟨pollingIntervalSecs, flushIntervalSecs, defaultDurableTtl, true⟩

/-- The settings with another time to live of durable entries. -/
def withDurableTtl (s : CacheSettings) (secs : UInt64) : CacheSettings :=
  { s with durableTtlSecs := secs }

/-- The settings with passes in the background, or not. -/
def withBackgroundFlush (s : CacheSettings) (background : Bool) : CacheSettings :=
  { s with backgroundFlush := background }

end CacheSettings

end MarketCache
