import Std.Data.ExtTreeMap
import MarketCache.Store.Basic

/-!
# The store in memory

Values with the instants at which they expire. An expired value is removed by the first read
that meets it, in two steps between which other operations may come: a look at the value
(`check`), and its removal if what is there by then has expired too (`evict`).
-/

namespace MarketCache

/-- A value and the instant from which it is no longer there. -/
structure StoredValue where
  value : Bytes
  expiresAt : Instant
deriving DecidableEq, Repr

/-- Whether a value is no longer there. -/
def StoredValue.isExpired (v : StoredValue) (now : Instant) : Bool := v.expiresAt ≤ now

/-- A store that is lost with its process. -/
structure MemoryStore where
  values : Std.ExtTreeMap String StoredValue compare
deriving DecidableEq

namespace MemoryStore

/-- What a read sees under a key. -/
inductive Check where
  | absent
  | live (value : Bytes)
  | expired
deriving DecidableEq, Repr

/-- The store without values. -/
def empty : MemoryStore := ⟨∅⟩

/-- The number of values, expired ones that no read has met included. -/
def size (s : MemoryStore) : Nat := s.values.size

/-- Whether the store has no values, not even expired ones. -/
def isEmpty (s : MemoryStore) : Bool := s.values.isEmpty

/-- What a read at `now` sees under a key. -/
def check (s : MemoryStore) (now : Instant) (key : String) : Check :=
  match s.values[key]? with
  | none => .absent
  | some v => if v.isExpired now then .expired else .live v.value

/-- Removes the value of a key if it has expired at `now`. -/
def evict (s : MemoryStore) (now : Instant) (key : String) : MemoryStore :=
  match s.values[key]? with
  | none => s
  | some v => if v.isExpired now then ⟨s.values.erase key⟩ else s

/-- The value of a key; an expired one is removed. -/
def get (s : MemoryStore) (now : Instant) (key : String) : Option Bytes × MemoryStore :=
  match s.check now key with
  | .absent => (none, s)
  | .live v => (some v, s)
  | .expired => (none, s.evict now key)

/-- The instant at which a value written at `now` expires, the latest one at most. -/
def expiry (now : Instant) (ttlSecs : UInt64) : Instant :=
  (now.add? (.ofSeconds ttlSecs)).getD Instant.latest

/-- Writes a value over what is under the key. -/
def put (s : MemoryStore) (now : Instant) (key : String) (value : Bytes) (ttlSecs : UInt64) :
    MemoryStore :=
  ⟨s.values.insert key ⟨value, expiry now ttlSecs⟩⟩

instance : DurableStore MemoryStore where
  get s now key :=
    let (v, s) := s.get now key
    (.ok v, s)
  put s now key value ttlSecs := (.accepted, s.put now key value ttlSecs)

end MemoryStore

end MarketCache
