import MarketCache.Entry
import MarketCache.Payload
import MarketCache.Time.Timestamp.Reader

/-!
# Entries as bytes

The durable form of an entry: a JSON record with the fields `key`, `payload` and
`captured_at`.

Main definitions:
* `Entry.encode?`: the bytes of an entry, unless its payload cannot be encoded.
* `Entry.decode`: the entry of some bytes.
-/

namespace MarketCache

namespace Entry

variable {α : Type} [Payload α]

/-- An entry as a JSON record, unless its payload cannot be encoded. -/
def toJson? (e : Entry α) : Option Json :=
  (Payload.toJson? e.payload).map fun p =>
    .object [("key", .string e.key), ("payload", p),
      ("captured_at", .string e.capturedAt.timestamp)]

/-- The bytes of an entry, unless its payload cannot be encoded. -/
def encode? (e : Entry α) : Option Bytes := e.toJson?.map Json.bytes

/-- An entry of which some fields are known. -/
structure Known (α : Type) where
  key : Option String
  payload : Option α
  capturedAt : Option Instant

/-- The fields of an entry. -/
def shape : Json.Shape (Known α) (Entry α) where
  fields := [
    .of "key" true Json.textField (·.key) fun v s => { s with key := some v },
    .of "payload" true Payload.read (·.payload) fun v s => { s with payload := some v },
    .of "captured_at" true Json.instantField (·.capturedAt)
      fun v s => { s with capturedAt := some v }]
  start := ⟨none, none, none⟩
  finish? s := do
    let key ← s.key
    let payload ← s.payload
    let capturedAt ← s.capturedAt
    some ⟨key, payload, capturedAt⟩

/-- The entry that some bytes stand for. -/
def decode (bs : Bytes) : Except Json.ReadError (Entry α) := shape.parse bs

end Entry

end MarketCache
