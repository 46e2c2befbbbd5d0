import MarketCache.Cache.Basic

/-!
# Tasks

What goes on in a process at the same time: lookups, flushes, passes in the background, and
tasks that flush a cache from time to time. A task is described by the step it takes next, so
that steps of different tasks can follow each other in any order.
-/

namespace MarketCache

variable {α ε : Type}

/-- The next step of a lookup. -/
inductive LookupStage (α ε : Type) where
  /-- Ask the hot tier. -/
  | asking
  /-- Read the durable store. -/
  | reading
  /-- Judge what was read. -/
  | judging (r : DurableRead α)
  /-- Take the provider's answer. -/
  | fetching
  /-- Start a pass if one is due. -/
  | closing (answer : Except ε (Lookup α))
  /-- Let the batch that was taken be written in the background. -/
  | detaching (answer : Except ε (Lookup α)) (batch : List (PendingWrite α))
  /-- Go on with the pass that was started. -/
  | writing (answer : Except ε (Lookup α)) (pass : Pass α)

/-- The next step of a flush. -/
inductive FlushStage (α : Type) where
  /-- Take over the passes in the background. -/
  | starting
  /-- Wait until they have ended. -/
  | joining (passes : List Nat)
  /-- Take all that waits. -/
  | taking
  /-- Go on with the pass that was started. -/
  | writing (pass : Pass α)

/-- A task of the cache with a given number, or what became of it. -/
inductive Task (α ε : Type) where
  /-- A lookup of a key as of an instant. -/
  | lookup (cache : Nat) (key : String) (now : Instant) (stage : LookupStage α ε)
  /-- A flush as of an instant. -/
  | flush (cache : Nat) (now : Instant) (stage : FlushStage α)
  /-- A pass in the background. -/
  | pass (cache : Nat) (pass : Pass α)
  /-- Flushes from time to time; between two flushes it sleeps for some seconds. -/
  | maintenance (cache : Nat) (intervalSecs : Nat) (flush : Option (Instant × FlushStage α))
  /-- A lookup that is over. -/
  | answered (answer : Except ε (Lookup α))
  /-- A flush that is over. -/
  | flushed (report : FlushReport)
  /-- A pass that is over. -/
  | ended
  /-- A task that was given up, or that went down with the store. -/
  | aborted

/-- Whether a task takes no more steps. -/
def Task.isOver : Task α ε → Bool
  | .answered _ => true
  | .flushed _ => true
  | .ended => true
  | .aborted => true
  | _ => false

/-- The pass that a task is writing. -/
def Task.pass? : Task α ε → Option (Pass α)
  | .lookup _ _ _ (.writing _ p) => some p
  | .flush _ _ (.writing p) => some p
  | .pass _ p => some p
  | .maintenance _ _ (some (_, .writing p)) => some p
  | _ => none

/-- The passes that a task waits for. -/
def Task.joined : Task α ε → List Nat
  | .flush _ _ (.joining passes) => passes
  | .maintenance _ _ (some (_, .joining passes)) => passes
  | _ => []

end MarketCache
