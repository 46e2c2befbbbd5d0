import MarketCache.Json.Printer
import MarketCache.Json.Record

/-!
# Payloads

What a cache can keep: values that are written as JSON, some of them perhaps not, and read
back from it.
-/

namespace MarketCache

/-- Values that can be written as JSON and read from it. -/
class Payload (α : Type) where
  /-- The value as JSON, unless it cannot be encoded. -/
  toJson? : α → Option Json
  /-- The next value of a text, inside a record. -/
  read : Bytes → Except Json.ReadError (α × Bytes)

/-- Any JSON value, at most 126 arrays and objects inside each other when it is read. -/
instance : Payload Json where
  toJson? := some
  read := Json.readValue (Json.depthLimit - 1)

instance : Payload String where
  toJson? s := some (.string s)
  read := Json.textField

instance : Payload UInt32 where
  toJson? n := some (Json.word n.toUInt64)
  read := Json.word32Field

end MarketCache
