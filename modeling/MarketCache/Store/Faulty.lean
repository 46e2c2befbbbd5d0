import MarketCache.Store.Basic

/-!
# A store that fails on demand

A store in front of another one. It refuses reads and writes as its fault plan says, counts
the reads and keeps a journal of the writes, so that what a cache asks of its store can be
followed.
-/

namespace MarketCache

/-- Which operations fail, and how long a write waits before it begins. -/
structure FaultPlan where
  failReads : Bool
  failWrites : Bool
  /-- Writes of keys that start with this text fail. -/
  failPrefix : Option String
  putDelayMillis : Nat
  /-- Writes break the store down. -/
  abortWrites : Bool
deriving DecidableEq, Repr

/-- Nothing fails and nothing waits. -/
def FaultPlan.none : FaultPlan := ⟨false, false, .none, 0, false⟩

/-- Whether the plan refuses to write a key. -/
def FaultPlan.refuses (p : FaultPlan) (key : String) : Bool :=
  p.failWrites || p.failPrefix.any fun start => start.toList.isPrefixOf key.toList

/-- A write as it was asked for, and whether it was accepted. -/
structure JournalLine where
  key : String
  value : Bytes
  ttlSecs : UInt64
  accepted : Bool
deriving DecidableEq, Repr

/-- A store behind a fault plan. -/
structure FaultyStore (σ : Type) where
  inner : σ
  plan : FaultPlan
  /-- The number of reads, refused ones included. -/
  reads : Nat
  /-- The writes, the latest first; one that broke the store down is not among them. -/
  journal : List JournalLine

namespace FaultyStore

variable {σ : Type}

/-- A store that works, with an empty journal. -/
def ofStore (inner : σ) : FaultyStore σ := ⟨inner, .none, 0, []⟩

/-- Reads a key, unless reads are refused. -/
def get [DurableStore σ] (s : FaultyStore σ) (now : Instant) (key : String) :
    Except StoreError (Option Bytes) × FaultyStore σ :=
  let s := { s with reads := s.reads + 1 }
  if s.plan.failReads then (.error (.unavailable "reads are refused"), s)
  else
    let (r, inner) := DurableStore.get s.inner now key
    (r, { s with inner })

/-- Writes a value, unless the write is refused or breaks the store down. -/
def put [DurableStore σ] (s : FaultyStore σ) (now : Instant) (key : String) (value : Bytes)
    (ttlSecs : UInt64) : PutOutcome × FaultyStore σ :=
  if s.plan.abortWrites then (.aborted, s)
  else if s.plan.refuses key then
    (.refused, { s with journal := ⟨key, value, ttlSecs, false⟩ :: s.journal })
  else
    let (r, inner) := DurableStore.put s.inner now key value ttlSecs
    (r, { s with inner, journal := ⟨key, value, ttlSecs, r == .accepted⟩ :: s.journal })

instance [DurableStore σ] : DurableStore (FaultyStore σ) where
  get := get
  put := put

end FaultyStore

end MarketCache
