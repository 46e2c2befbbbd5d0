import Std.Data.ExtTreeMap
import MarketCache.Cache.Task

/-!
# Caches at work

The caches of a process over one durable store, with the tasks that use them. A system moves
on by one step of one task at a time; whoever drives it chooses the task, the time that the
clock shows, and what the provider answers to a lookup that waits for it. A run is any
sequence of such choices.

Main definitions:
* `System.step`: one step of a task.
* `System.addLookup`, `System.addFlush`, `System.addMaintenance`: new tasks.
* `System.abort`: gives a task up, and with it all that it had taken over.
-/

namespace MarketCache

/-- A cache and its passes in the background that nobody has waited for yet. -/
structure Slot (α : Type) where
  cache : TieredCache α
  inFlight : List Nat

/-- The caches of a process, their store and their tasks. -/
structure System (α ε σ : Type) where
  store : σ
  slots : List (Slot α)
  tasks : Std.ExtTreeMap Nat (Task α ε) compare
  /-- The number of the next task. -/
  next : Nat

namespace System

variable {α ε σ : Type}

/-- Caches over a store, without tasks. -/
def ofCaches (store : σ) (caches : List (TieredCache α)) : System α ε σ :=
  ⟨store, caches.map (⟨·, []⟩), ∅, 0⟩

/-- The cache of a number. -/
def cache? (s : System α ε σ) (cache : Nat) : Option (TieredCache α) :=
  s.slots[cache]?.map (·.cache)

/-- The task of a number. -/
def task? (s : System α ε σ) (id : Nat) : Option (Task α ε) := s.tasks[id]?

/-- The system with another state of a task. -/
def setTask (s : System α ε σ) (id : Nat) (t : Task α ε) : System α ε σ :=
  { s with tasks := s.tasks.insert id t }

/-- The system with another state of a cache. -/
def setSlot (s : System α ε σ) (cache : Nat) (slot : Slot α) : System α ε σ :=
  { s with slots := s.slots.set cache slot }

/-- The system with another state of a cache, its passes in the background being the same. -/
def setCache (s : System α ε σ) (cache : Nat) (c : TieredCache α) : System α ε σ :=
  { s with slots := s.slots.modify cache fun slot => { slot with cache := c } }

/-- A new task and its number. -/
def add (s : System α ε σ) (t : Task α ε) : Nat × System α ε σ :=
  (s.next, { s.setTask s.next t with next := s.next + 1 })

/-- A new lookup of a query as of `now`. -/
def addLookup (s : System α ε σ) (cache : Nat) (q : LogicalQuery) (now : Instant) :
    Option (Nat × System α ε σ) :=
  (s.cache? cache).map fun c => s.add (.lookup cache (c.keyFor q) now .asking)

/-- A new flush as of `now`. -/
def addFlush (s : System α ε σ) (cache : Nat) (now : Instant) : Nat × System α ε σ :=
  s.add (.flush cache now .starting)

/-- A new task that flushes a cache after every `intervalSecs` seconds of sleep. -/
def addMaintenance (s : System α ε σ) (cache : Nat) (intervalSecs : Nat) :
    Nat × System α ε σ :=
  s.add (.maintenance cache intervalSecs none)

/-- Whether a task takes no more steps. -/
def isOver (s : System α ε σ) (id : Nat) : Bool := (s.task? id).all Task.isOver

/-! ## Steps -/

section Steps

variable [Payload α] [DurableStore σ]

/-- One step of a pass of a cache; at its end the cache counts what became of the batch. -/
def stepPass (s : System α ε σ) (cache : Nat) (c : TieredCache α) (clock : Instant)
    (p : Pass α) : Pass.Progress α × System α ε σ :=
  let (progress, store) := p.step c.writeBack.ttlSecs clock s.store
  let s := { s with store }
  match progress with
  | .finished r => (.finished r, s.setCache cache (c.settle r))
  | progress => (progress, s)

/-- One step of a lookup. -/
def stepLookup (s : System α ε σ) (id cache : Nat) (c : TieredCache α) (key : String)
    (now clock : Instant) (outcome : Option (Except ε α)) (stage : LookupStage α ε) :
    System α ε σ :=
  let goOn (s : System α ε σ) (stage : LookupStage α ε) :=
    s.setTask id (.lookup cache key now stage)
  match stage with
  | .asking =>
    match c.checkHot key now with
    | (some e, c) => goOn (s.setCache cache c) (.closing (.ok (.cached e)))
    | (none, c) => goOn (s.setCache cache c) .reading
  | .reading =>
    let (r, store) := DurableStore.get s.store clock key
    goOn { s with store } (.judging (.ofBytes r))
  | .judging r =>
    match c.checkDurable r now with
    | (some e, c) => goOn (s.setCache cache c) (.closing (.ok (.cached e)))
    | (none, c) => goOn (s.setCache cache c) .fetching
  | .fetching =>
    match outcome with
    | some (.ok payload) =>
      let e : Entry α := ⟨key, payload, now⟩
      goOn (s.setCache cache (c.storeFetched e)) (.closing (.ok (.fetched e)))
    | some (.error err) => goOn s (.closing (.error err))
    | none => s
  | .closing answer =>
    match c.takeDue? now with
    | none => s.setTask id (.answered answer)
    | some (batch, c) =>
      goOn (s.setCache cache c)
        (if c.backgroundFlush then .detaching answer batch else .writing answer (.ofBatch batch))
  | .detaching answer batch =>
    let (pass, s) := s.add (.pass cache (.ofBatch batch))
    let s := { s with
      slots := s.slots.modify cache fun slot => { slot with inFlight := slot.inFlight ++ [pass] } }
    s.setTask id (.answered answer)
  | .writing answer p =>
    match s.stepPass cache c clock p with
    | (.finished _, s) => s.setTask id (.answered answer)
    | (.further p, s) => goOn s (.writing answer p)
    | (.aborted, s) => s.setTask id .aborted

/-- One step of a flush: the system, and the next stage or the report. -/
def stepFlush (s : System α ε σ) (cache : Nat) (slot : Slot α) (now clock : Instant) :
    FlushStage α → System α ε σ × Option (FlushStage α ⊕ FlushReport)
  | .starting =>
    (s.setSlot cache { slot with inFlight := [] }, some (.inl (.joining slot.inFlight)))
  | .joining passes =>
    (s, some (.inl (if passes.all s.isOver then .taking else .joining passes)))
  | .taking =>
    let (batch, c) := slot.cache.takeAll now
    (s.setCache cache c, some (.inl (.writing (.ofBatch batch))))
  | .writing p =>
    match s.stepPass cache slot.cache clock p with
    | (.finished r, s) => (s, some (.inr r))
    | (.further p, s) => (s, some (.inl (.writing p)))
    | (.aborted, s) => (s, none)

/-- One step of a task; `outcome` is the provider's answer, if it has come. A task that is over,
    or whose cache does not exist, takes no step; nor does one that waits for passes that have
    not ended, or for an answer that has not come. -/
def step (s : System α ε σ) (clock : Instant) (outcome : Option (Except ε α)) (id : Nat) :
    System α ε σ :=
  match s.task? id with
  | some (.lookup cache key now stage) =>
    match s.cache? cache with
    | some c => s.stepLookup id cache c key now clock outcome stage
    | none => s
  | some (.flush cache now stage) =>
    match s.slots[cache]? with
    | some slot =>
      match s.stepFlush cache slot now clock stage with
      | (s, some (.inl stage)) => s.setTask id (.flush cache now stage)
      | (s, some (.inr r)) => s.setTask id (.flushed r)
      | (s, none) => s.setTask id .aborted
    | none => s
  | some (.pass cache p) =>
    match s.cache? cache with
    | some c =>
      match s.stepPass cache c clock p with
      | (.finished _, s) => s.setTask id .ended
      | (.further p, s) => s.setTask id (.pass cache p)
      | (.aborted, s) => s.setTask id .aborted
    | none => s
  | some (.maintenance cache secs none) =>
    s.setTask id (.maintenance cache secs (some (clock, .starting)))
  | some (.maintenance cache secs (some (now, stage))) =>
    match s.slots[cache]? with
    | some slot =>
      match s.stepFlush cache slot now clock stage with
      | (s, some (.inl stage)) => s.setTask id (.maintenance cache secs (some (now, stage)))
      | (s, some (.inr _)) => s.setTask id (.maintenance cache secs none)
      | (s, none) => s.setTask id .aborted
    | none => s
  | some (.answered _) => s
  | some (.flushed _) => s
  | some .ended => s
  | some .aborted => s
  | none => s

end Steps

/-- Gives a task up. The passes that it had taken over and still waits for are given up with
    it, and so is the batch that it was writing. -/
def abort (s : System α ε σ) (id : Nat) : System α ε σ :=
  match s.task? id with
  | none => s
  | some t =>
    if t.isOver then s
    else
      let s := t.joined.foldl
        (fun s pass => if s.isOver pass then s else s.setTask pass .aborted) s
      s.setTask id .aborted

/-- Puts an empty cache in the place of another one, whose passes in the background are given
    up; what waited in it to be written is lost. -/
def replaceCache (s : System α ε σ) (cache : Nat) (c : TieredCache α) : System α ε σ :=
  match s.slots[cache]? with
  | none => s
  | some slot =>
    let s := slot.inFlight.foldl
      (fun s pass => if s.isOver pass then s else s.setTask pass .aborted) s
    s.setSlot cache ⟨c, []⟩

end System

end MarketCache
