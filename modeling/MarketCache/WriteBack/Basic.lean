import Std.Data.ExtTreeMap
import MarketCache.Entry
import MarketCache.Stats

/-!
# Write-back

Fetched entries wait here to be written to the durable tier. Of each key only the latest entry
waits. A pass takes all that waits at once and notes the time at which it did so; a pass is
due when at least one flush interval has gone by since the previous one, of whatever kind.

Main definitions:
* `WriteBack`: the entries that wait, the time of the last pass, and the counters.
* `WriteBack.record`: lets an entry wait.
* `WriteBack.takeAll`, `WriteBack.takeDue?`: the batch of a pass.
* `WriteBack.settle`: counts what became of a batch.
-/

namespace MarketCache

/-- An entry that waits, and since when. -/
structure PendingWrite (α : Type) where
  entry : Entry α
  enqueuedAt : Instant
deriving DecidableEq, Repr

/-- The key of the entry that waits. -/
abbrev PendingWrite.key {α : Type} (w : PendingWrite α) : String := w.entry.key

/-- The order of a batch: by the instant since which entries wait, then by key. -/
def PendingWrite.precedes {α : Type} (a b : PendingWrite α) : Bool :=
  a.enqueuedAt < b.enqueuedAt || (a.enqueuedAt == b.enqueuedAt && a.key ≤ b.key)

/-- What became of the entries of one pass, or of several. -/
structure FlushReport where
  attempted : Nat
  written : Nat
  failed : Nat
deriving DecidableEq, Repr, Inhabited

/-- Nothing was attempted. -/
def FlushReport.zero : FlushReport := ⟨0, 0, 0⟩

/-- Two reports taken together. -/
def FlushReport.merge (a b : FlushReport) : FlushReport :=
  ⟨a.attempted + b.attempted, a.written + b.written, a.failed + b.failed⟩

/-- The entries of one cache that wait for the durable tier. -/
structure WriteBack (α : Type) where
  flushIntervalSecs : UInt64
  /-- The time to live of every write. -/
  ttlSecs : UInt64
  pending : Std.ExtTreeMap String (PendingWrite α) compare
  lastFlushAt : Instant
  /-- Passes taken. -/
  flushes : Nat
  /-- Entries written. -/
  flushedEntries : Nat
  /-- Entries discarded after a failed encoding or write. -/
  flushFailures : Nat

namespace WriteBack

variable {α : Type}

/-- Nothing waits, and the first pass is due one interval after `startedAt`. -/
def start (flushIntervalSecs ttlSecs : UInt64) (startedAt : Instant) : WriteBack α :=
  ⟨flushIntervalSecs, ttlSecs, ∅, startedAt, 0, 0, 0⟩

/-- Lets an entry wait since `now`, in place of an older one of its key. -/
def record (w : WriteBack α) (e : Entry α) (now : Instant) : WriteBack α :=
  { w with pending := w.pending.insert e.key ⟨e, now⟩ }

/-- The write that waits for a key. -/
def pendingFor? (w : WriteBack α) (key : String) : Option (PendingWrite α) := w.pending[key]?

/-- The number of entries that wait. -/
def pendingCount (w : WriteBack α) : Nat := w.pending.size

/-- Whether at least one flush interval lies between the last pass and `now`. -/
def isDue (w : WriteBack α) (now : Instant) : Bool :=
  .ofSeconds w.flushIntervalSecs ≤ now.since w.lastFlushAt

/-- All that waits, in the order in which it is written. -/
def batch (w : WriteBack α) : List (PendingWrite α) :=
  (w.pending.toList.map (·.2)).mergeSort PendingWrite.precedes

/-- Takes all that waits, at `now`. -/
def takeAll (w : WriteBack α) (now : Instant) : List (PendingWrite α) × WriteBack α :=
  (w.batch, { w with pending := ∅, lastFlushAt := now, flushes := w.flushes + 1 })

/-- Takes all that waits, if a pass is due at `now`. -/
def takeDue? (w : WriteBack α) (now : Instant) :
    Option (List (PendingWrite α) × WriteBack α) :=
  if w.isDue now then some (w.takeAll now) else none

/-- Counts what became of a batch. -/
def settle (w : WriteBack α) (r : FlushReport) : WriteBack α :=
  { w with
    flushedEntries := w.flushedEntries + r.written
    flushFailures := w.flushFailures + r.failed }

/-- The statistics with the counters of this write-back. -/
def fillStats (w : WriteBack α) (s : CacheStats) : CacheStats :=
  { s with
    flushes := w.flushes
    flushedEntries := w.flushedEntries
    flushFailures := w.flushFailures
    pendingWrites := w.pendingCount }

/-! ## What each operation does to the entries that wait -/

@[simp] theorem pendingFor?_start (interval ttl : UInt64) (startedAt : Instant) (key : String) :
    (start interval ttl startedAt : WriteBack α).pendingFor? key = none := by
  simp [pendingFor?, start]

theorem pendingFor?_record (w : WriteBack α) (e : Entry α) (now : Instant) (key : String) :
    (w.record e now).pendingFor? key =
      if e.key = key then some ⟨e, now⟩ else w.pendingFor? key := by
  simp [pendingFor?, record, Std.ExtTreeMap.getElem?_insert]

@[simp] theorem pendingFor?_takeAll (w : WriteBack α) (now : Instant) (key : String) :
    (w.takeAll now).2.pendingFor? key = none := by
  simp [pendingFor?, takeAll]

@[simp] theorem pendingFor?_settle (w : WriteBack α) (r : FlushReport) (key : String) :
    (w.settle r).pendingFor? key = w.pendingFor? key := rfl

end WriteBack

end MarketCache
