import MarketCache.Text.Utf8
import MarketCache.Time.Instant

/-!
# Durable stores

A durable store keeps bytes under keys, each put with a time to live, and is shared by the
caches of a process. Every operation is told what the store's clock shows.

Main definitions:
* `StoreError`: why a read or the opening of a store fails.
* `PutOutcome`: what became of a write.
* `DurableStore`: the operations of a store.
-/

namespace MarketCache

/-- Why a database could not be opened. -/
inductive DatabaseFault where
  /-- A regular file is where the database should be. -/
  | occupied
  /-- The database is open elsewhere. -/
  | locked
deriving DecidableEq, Repr

/-- A failure of a durable store. -/
inductive StoreError where
  /-- The store could not be reached or refused the operation. -/
  | unavailable (reason : String)
  /-- The bytes stored under a key do not have the expected form. -/
  | corrupted (key : String)
  /-- The database beneath the store failed. -/
  | database (fault : DatabaseFault)
deriving DecidableEq, Repr

/-- The text of a failure. -/
def StoreError.message : StoreError → String
  | .unavailable reason => "Durable store unavailable: " ++ reason
  | .corrupted key => "Corrupted record for key " ++ key
  | .database .occupied => "Database error: the path is a file"
  | .database .locked => "Database error: the database is in use"

/-- What became of a write. -/
inductive PutOutcome where
  /-- The store has the value. -/
  | accepted
  /-- The store has not changed. -/
  | refused
  /-- The store broke down in the middle of the operation, and whoever wrote goes down
      with it. -/
  | aborted
deriving DecidableEq, Repr

/-- The operations of a durable store; each returns the store as it leaves it. -/
class DurableStore (σ : Type) where
  /-- The value of a key, if it has one that has not expired at `now`. -/
  get : σ → (now : Instant) → (key : String) → Except StoreError (Option Bytes) × σ
  /-- Writes a value that expires `ttlSecs` after `now`. -/
  put : σ → (now : Instant) → (key : String) → Bytes → (ttlSecs : UInt64) → PutOutcome × σ

end MarketCache
