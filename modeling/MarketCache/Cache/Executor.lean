import MarketCache.Cache.System
import MarketCache.Store.Faulty

/-!
# Serving tasks in turn

One way to drive a system: a single worker with a queue. A task is served until it has to wait,
for a length of time or for other tasks. Tasks in the background are served in the order in
which they became ready. Those in the foreground, for whose ends somebody waits, come before
all of them; if none of them can go on, the whole queue is served, and only when it is empty
does time pass, up to the next moment at which somebody stops waiting.

The time that passes so is counted in milliseconds and has nothing to do with the clock, which
stands still unless it is moved.

Main definitions:
* `Executor.serve`: a task, until it has to wait.
* `Executor.runReady`: the queue, until it is empty.
* `Executor.runForeground`: everything, until the tasks in the foreground are over.
* `Executor.advance`: clock and time move on second by second.
-/

namespace MarketCache

/-- What the provider answers to a lookup, and after how long. -/
structure Fetch (α ε : Type) where
  delayMillis : Nat
  outcome : Except ε α

/-- A task that stops waiting at a moment. A write that begins after its wait goes by the fault
    plan that was in force when the wait began. -/
structure Timer where
  deadline : Nat
  task : Nat
  plan : FaultPlan

/-- A system with a worker. -/
structure Executor (α ε σ : Type) where
  system : System α ε (FaultyStore σ)
  /-- What the clock shows. -/
  clock : Instant
  /-- The time that has passed. -/
  millis : Nat
  /-- Tasks in the background that can be served, with the fault plan that their wait began
      under. -/
  ready : List (Nat × Option FaultPlan)
  /-- Tasks in the foreground that have stopped waiting. -/
  woken : List (Nat × FaultPlan)
  /-- The tasks that wait for a moment, the longest waiting first. -/
  timers : List Timer
  /-- The tasks in the foreground, in the order in which they are served. -/
  foreground : List Nat
  /-- The provider's answers to the lookups of given numbers. -/
  fetches : List (Nat × Fetch α ε)

/-- Why a task is not served any further. -/
inductive Pause where
  /-- It can go on. -/
  | none
  /-- It waits for some milliseconds. -/
  | delay (millis : Nat)
  /-- It waits for other tasks. -/
  | blocked
  /-- It is over. -/
  | over
deriving DecidableEq, Repr

namespace Executor

variable {α ε σ : Type}

/-- Caches over a store that works, with nothing to do. -/
def ofCaches (store : σ) (clock : Instant) (caches : List (TieredCache α)) :
    Executor α ε σ where
  system := .ofCaches (.ofStore store) caches
  clock := clock
  millis := 0
  ready := []
  woken := []
  timers := []
  foreground := []
  fetches := []

/-- The most steps that are taken in one go. -/
def patience : Nat := 1000000

/-- The executor with the store under another fault plan. -/
def withPlan (x : Executor α ε σ) (plan : FaultPlan) : Executor α ε σ :=
  { x with system := { x.system with store := { x.system.store with plan } } }

/-- The fault plan of the store. -/
def plan (x : Executor α ε σ) : FaultPlan := x.system.store.plan

/-- Whether a task waits for a moment. -/
def hasTimer (x : Executor α ε σ) (id : Nat) : Bool := x.timers.any (·.task == id)

/-- The tasks in the background that wait for a task, and are not in the queue yet. -/
def joinersOf (x : Executor α ε σ) (id : Nat) : List Nat :=
  let ids := x.system.tasks.toList.filterMap fun (k, t) =>
    if t.joined.contains id then some k else none
  ids.filter fun k => !x.foreground.contains k && !x.ready.any (·.1 == k)

section Serving

variable [Payload α] [DurableStore σ]

/-- Why a task is not served any further. Only a write that really happens is waited for. -/
def pause (x : Executor α ε σ) (id : Nat) : Pause :=
  match x.system.task? id with
  | Option.none => .over
  | some t =>
    if t.isOver then .over
    else
      match t, t.pass? with
      | _, some p =>
        match p.rest with
        | w :: _ => if w.entry.encode?.isSome then .delay x.plan.putDelayMillis else .none
        | [] => .none
      | .lookup _ _ _ .fetching, _ => .delay (((x.fetches.lookup id).map (·.delayMillis)).getD 0)
      | .maintenance _ secs Option.none, _ => .delay (secs * 1000)
      | t, _ => if t.joined.all x.system.isOver then .none else .blocked

/-- One step of a task. A pass that it starts joins the queue, and so do the tasks that waited
    for it if it is over now. -/
def step (x : Executor α ε σ) (id : Nat) : Executor α ε σ :=
  let before := x.system.next
  let system := x.system.step x.clock ((x.fetches.lookup id).map (·.outcome)) id
  let started := if before < system.next then [(before, Option.none)] else []
  let x := { x with system, ready := x.ready ++ started }
  if system.isOver id then { x with ready := x.ready ++ (x.joinersOf id).map (·, Option.none) }
  else x

/-- Serves a task until it has to wait. With `resumed`, its wait for a moment is over; the step
    that it waited for goes by the fault plan given there. -/
def serve : Nat → Executor α ε σ → Nat → Option FaultPlan → Executor α ε σ
  | 0, x, _, _ => x
  | fuel + 1, x, id, resumed =>
    match x.pause id, resumed with
    | .over, _ => x
    | .blocked, _ => x
    | .none, _ => serve fuel (x.step id) id Option.none
    | .delay _, some plan =>
      serve fuel (((x.withPlan plan).step id).withPlan x.plan) id Option.none
    | .delay 0, Option.none => serve fuel (x.step id) id Option.none
    | .delay ms, Option.none => { x with timers := x.timers ++ [⟨x.millis + ms, id, x.plan⟩] }

/-- Serves the tasks of the queue until there is none left. -/
def runReady : Nat → Executor α ε σ → Executor α ε σ
  | 0, x => x
  | fuel + 1, x =>
    match x.ready with
    | [] => x
    | (id, resumed) :: ready => runReady fuel (serve patience { x with ready } id resumed)

/-- Ends the waits whose moment has come. -/
def fireDue (x : Executor α ε σ) : Executor α ε σ :=
  let (due, timers) := x.timers.partition (·.deadline ≤ x.millis)
  let due := due.mergeSort (·.deadline ≤ ·.deadline)
  let (front, back) := due.partition fun t => x.foreground.contains t.task
  { x with
    timers
    woken := x.woken ++ front.map fun t => (t.task, t.plan)
    ready := x.ready ++ back.map fun t => (t.task, some t.plan) }

/-- Serves a task in the foreground unless it waits for a moment. -/
def serveFront (x : Executor α ε σ) (id : Nat) : Executor α ε σ :=
  if x.hasTimer id then x
  else
    let resumed := x.woken.lookup id
    serve patience { x with woken := x.woken.filter (·.1 != id) } id resumed

/-- Whether a task in the foreground can go on. -/
def canGoOn (x : Executor α ε σ) (id : Nat) : Bool :=
  !x.hasTimer id && x.pause id != .blocked && x.pause id != .over

/-- Serves all tasks until those in the foreground are over; then nobody is left in the
    foreground. -/
def runForeground : Nat → Executor α ε σ → Executor α ε σ
  | 0, x => x
  | fuel + 1, x =>
    let x := x.foreground.foldl serveFront x
    if x.foreground.all x.system.isOver then { x with foreground := [] }
    else
      let x := runReady patience x
      if x.foreground.any x.canGoOn then runForeground fuel x
      else
        match (x.timers.map (·.deadline)).min? with
        | Option.none => x
        | some moment => runForeground fuel (fireDue { x with millis := max x.millis moment })

/-- Serves the given tasks in the foreground, until they are over. -/
def waitFor (x : Executor α ε σ) (ids : List Nat) : Executor α ε σ :=
  runForeground patience { x with foreground := ids }

/-- Serves the queue without letting time pass. -/
def settle (x : Executor α ε σ) : Executor α ε σ := runReady patience x

/-- Lets clock and time move on by one second after another, and serves the queue before and
    after waits end. -/
def advance (x : Executor α ε σ) : Nat → Executor α ε σ
  | 0 => x
  | secs + 1 =>
    let x := { x with
      clock := { x.clock with second := x.clock.second + 1 }
      millis := x.millis + 1000 }
    advance (x.settle.fireDue.settle) secs

/-- A new task that flushes a cache from time to time. It is served once, so that its sleep
    begins at this moment. -/
def addMaintenance (x : Executor α ε σ) (cache intervalSecs : Nat) : Nat × Executor α ε σ :=
  let (id, system) := x.system.addMaintenance cache intervalSecs
  (id, { x with system, ready := x.ready ++ [(id, Option.none)] }.settle)

end Serving

/-! ## Tasks -/

/-- A new lookup, and what the provider is going to answer to it. -/
def addLookup (x : Executor α ε σ) (cache : Nat) (q : LogicalQuery) (now : Instant)
    (fetch : Fetch α ε) : Option (Nat × Executor α ε σ) :=
  (x.system.addLookup cache q now).map fun (id, system) =>
    (id, { x with system, fetches := (id, fetch) :: x.fetches })

/-- A new flush. -/
def addFlush (x : Executor α ε σ) (cache : Nat) (now : Instant) : Nat × Executor α ε σ :=
  let (id, system) := x.system.addFlush cache now
  (id, { x with system })

/-- Forgets the waits of tasks that are over. -/
def prune (x : Executor α ε σ) : Executor α ε σ :=
  { x with timers := x.timers.filter fun t => !x.system.isOver t.task }

/-- Gives a task up. -/
def abort (x : Executor α ε σ) (id : Nat) : Executor α ε σ :=
  { x with system := x.system.abort id }.prune

/-- Puts an empty cache in the place of another one, and gives up the tasks that flush that one
    from time to time. -/
def replaceCache (x : Executor α ε σ) (cache : Nat) (c : TieredCache α) : Executor α ε σ :=
  let ids := x.system.tasks.toList.filterMap fun (id, t) =>
    match t with
    | .maintenance k _ _ => if k = cache then some id else Option.none
    | _ => Option.none
  let system := (ids.foldl System.abort x.system).replaceCache cache c
  { x with system }.prune

end Executor

end MarketCache
