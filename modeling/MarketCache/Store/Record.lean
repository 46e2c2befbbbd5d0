import Std.Data.ExtTreeMap
import MarketCache.Store.Basic

/-!
# The store of records

A store that outlives its process. What it keeps under a key is a record: eight bytes with the
expiry in milliseconds since the epoch, most significant byte first and signed, and the value
behind them. A read that meets an expired record removes it in two steps between which other
operations may come: a look at the record (`check`), and its removal if exactly that record
is still there (`evict`).
-/

namespace MarketCache

namespace Record

/-- The greatest expiry, which stands for every later one. -/
def latestExpiry : Int := 9223372036854775807

/-- The milliseconds at which a value written at `now` expires. -/
def expiry (now : Instant) (ttlSecs : UInt64) : Int :=
  match now.add? (.ofSeconds ttlSecs) with
  | some t => t.millis
  | none => latestExpiry

/-- `n` as `count` bytes, the most significant first; what does not fit is dropped. -/
def bigEndian : Nat → Nat → Bytes
  | 0, _ => []
  | count + 1, n => UInt8.ofNat (n / Nat.pow 256 count) :: bigEndian count n

/-- The number of some bytes, the most significant first. -/
def ofBigEndian (bs : Bytes) : Nat := bs.foldl (fun n b => n * 256 + b.toNat) 0

/-- The record of a value that expires at some millisecond. -/
def encode (expiry : Int) (value : Bytes) : Bytes :=
  bigEndian 8 (expiry % 18446744073709551616).toNat ++ value

/-- The expiry and the value of a record; there are none in fewer than eight bytes. -/
def decode? (record : Bytes) : Option (Int × Bytes) :=
  if record.length < 8 then none
  else some (Int.bmod (ofBigEndian (record.take 8)) UInt64.size, record.drop 8)

end Record

/-- A store that outlives its process. -/
structure RecordStore where
  records : Std.ExtTreeMap String Bytes compare
deriving DecidableEq

namespace RecordStore

/-- What a read sees under a key. -/
inductive Check where
  | absent
  | live (value : Bytes)
  | expired (record : Bytes)
  | corrupted
deriving DecidableEq, Repr

/-- The store without records. -/
def empty : RecordStore := ⟨∅⟩

/-- What a read at `now` sees under a key. -/
def check (s : RecordStore) (now : Instant) (key : String) : Check :=
  match s.records[key]? with
  | none => .absent
  | some record =>
    match Record.decode? record with
    | none => .corrupted
    | some (expiry, value) => if expiry ≤ now.millis then .expired record else .live value

/-- Removes a record if it is still there. -/
def evict (s : RecordStore) (key : String) (record : Bytes) : RecordStore :=
  if s.records[key]? = some record then ⟨s.records.erase key⟩ else s

/-- The value of a key; an expired record is removed. -/
def get (s : RecordStore) (now : Instant) (key : String) :
    Except StoreError (Option Bytes) × RecordStore :=
  match s.check now key with
  | .absent => (.ok none, s)
  | .live v => (.ok (some v), s)
  | .expired record => (.ok none, s.evict key record)
  | .corrupted => (.error (.corrupted key), s)

/-- Writes a record behind the store's back. -/
def putRaw (s : RecordStore) (key : String) (record : Bytes) : RecordStore :=
  ⟨s.records.insert key record⟩

/-- Writes a value over what is under the key. -/
def put (s : RecordStore) (now : Instant) (key : String) (value : Bytes) (ttlSecs : UInt64) :
    RecordStore :=
  s.putRaw key (Record.encode (Record.expiry now ttlSecs) value)

instance : DurableStore RecordStore where
  get := get
  put s now key value ttlSecs := (.accepted, s.put now key value ttlSecs)

end RecordStore

end MarketCache
