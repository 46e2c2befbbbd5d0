import Std.Data.ExtTreeMap
import MarketCache.Time.Instant

/-!
# Throttling notifications

A gate that opens at most once in a window for one event and recipient. It remembers when it
last opened for a key, and judges the age of that memory anew at every question; refusals
leave no trace.

Main definitions:
* `ThrottleGuard.shouldFire`, `ThrottleGuard.tryFire?`: whether the gate opens.
* `throttleKey`: the key of an event and a recipient.
-/

namespace MarketCache

/-- The window within which notifications are suppressed, in seconds. -/
def defaultThrottleWindow : UInt64 := 300

/-- When the gate last opened for a key. -/
structure ThrottleRecord where
  key : String
  lastFiredAt : Instant
deriving DecidableEq, Repr

/-- The memory of the gate. -/
structure ThrottleGuard where
  records : Std.ExtTreeMap String ThrottleRecord compare
deriving DecidableEq

namespace ThrottleGuard

/-- A gate that has never opened. -/
def empty : ThrottleGuard := ⟨∅⟩

/-- The record of a key. -/
def record? (g : ThrottleGuard) (key : String) : Option ThrottleRecord := g.records[key]?

/-- The number of records. -/
def size (g : ThrottleGuard) : Nat := g.records.size

/-- Whether there is no record. -/
def isEmpty (g : ThrottleGuard) : Bool := g.records.isEmpty

/-- Whether the gate opens for a key at `now`: it never did, or at least a window ago. -/
def shouldFire (g : ThrottleGuard) (key : String) (windowSecs : UInt64) (now : Instant) : Bool :=
  match g.record? key with
  | none => true
  | some r => .ofSeconds windowSecs ≤ now.since r.lastFiredAt

/-- Notes that the gate opened for a key at `now`. -/
def markFired (g : ThrottleGuard) (key : String) (now : Instant) : ThrottleGuard :=
  ⟨g.records.insert key ⟨key, now⟩⟩

/-- Whether the gate opens for a key at `now`, and its memory afterwards. -/
def tryFire (g : ThrottleGuard) (key : String) (windowSecs : UInt64) (now : Instant) :
    Bool × ThrottleGuard :=
  if g.shouldFire key windowSecs now then (true, g.markFired key now) else (false, g)

/-- Whether the gate has a record of a key. -/
def contains (g : ThrottleGuard) (key : String) : Bool := g.records.contains key

/-- The gate without its record of a key. -/
def clear (g : ThrottleGuard) (key : String) : ThrottleGuard := ⟨g.records.erase key⟩

@[simp] theorem record?_empty (key : String) : empty.record? key = none := by
  simp [record?, empty]

theorem record?_markFired (g : ThrottleGuard) (k key : String) (now : Instant) :
    (g.markFired k now).record? key = if k = key then some ⟨k, now⟩ else g.record? key := by
  simp [record?, markFired, Std.ExtTreeMap.getElem?_insert]

theorem record?_clear (g : ThrottleGuard) (k key : String) :
    (g.clear k).record? key = if k = key then none else g.record? key := by
  simp [record?, clear, Std.ExtTreeMap.getElem?_erase]

end ThrottleGuard

/-- The key of notifications of an event to a recipient. -/
def throttleKey (event recipient : String) : String := event ++ ":" ++ recipient

end MarketCache
