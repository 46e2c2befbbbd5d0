import Mathlib.Data.List.Induction
import MarketCache.Proofs.System.Turn

/-!
# What a run asks of its store

The store is read by lookups and written by passes. Beside the history of a run stand two more
lists, the oldest entry first: what each read of a lookup came to, and which writes were
asked for, what the store's clock showed, and what became of them.

Main definitions:
* `StoreRead`, `System.reads`: the reads of a run.
* `StoreWrite`, `System.writes`: the writes of a run.

Results:
* `reads_append`, `writes_append`: the lists of a longer run.
* `prefix_induction`: what holds of a run part by part.
-/

namespace MarketCache

variable {α ε σ : Type}

/-- A read of the store by a lookup. -/
structure StoreRead where
  cache : Nat
  key : String
  result : Except StoreError (Option Bytes)

/-- Whether the store refused a read. -/
def StoreRead.isRefused (r : StoreRead) : Bool :=
  match r.result with
  | .error _ => true
  | .ok _ => false

/-- Whether a read was refused or came to bytes that are no entry with a payload in `α`. -/
def StoreRead.isFailed (α : Type) [Payload α] (r : StoreRead) : Bool :=
  match (DurableRead.ofBytes r.result : DurableRead α) with
  | .failed => true
  | _ => false

/-- A write of an entry that was asked of the store. -/
structure StoreWrite (α : Type) where
  /-- What the store's clock showed. -/
  clock : Instant
  entry : Entry α
  bytes : Bytes
  ttlSecs : UInt64
  outcome : PutOutcome

namespace System

section Access

variable [Payload α] [DurableStore σ]

/-- The read that an event makes, if any. -/
def read? (s : System α ε σ) : Event α ε σ → Option StoreRead
  | .step clock _ id =>
    match s.task? id with
    | some (.lookup cache key _ .reading) =>
      if (s.cache? cache).isSome then some ⟨cache, key, (DurableStore.get s.store clock key).1⟩
      else none
    | _ => none
  | _ => none

/-- The write that an event asks for, if any. -/
def write? (s : System α ε σ) : Event α ε σ → Option (StoreWrite α)
  | .step clock _ id =>
    match s.task? id with
    | some t =>
      match t.pass?, t.cache?.bind s.cache? with
      | some ⟨w :: _, _⟩, some c =>
        w.entry.encode?.map fun bytes =>
          ⟨clock, w.entry, bytes, c.writeBack.ttlSecs,
            (DurableStore.put s.store clock w.key bytes c.writeBack.ttlSecs).1⟩
      | _, _ => none
    | none => none
  | _ => none

/-- The reads of a run, the oldest first. -/
def reads (s : System α ε σ) : List (Event α ε σ) → List StoreRead
  | [] => []
  | e :: events => (s.read? e).toList ++ (s.apply e).reads events

/-- The writes of a run, the oldest first. -/
def writes (s : System α ε σ) : List (Event α ε σ) → List (StoreWrite α)
  | [] => []
  | e :: events => (s.write? e).toList ++ (s.apply e).writes events

omit [Payload α] in
/-- A lookup that comes to the store reads its key. -/
theorem read?_of_task? {s : System α ε σ} {id cache : Nat} {key : String} {now : Instant}
    {c : TieredCache α} (ht : s.task? id = some (.lookup cache key now .reading))
    (hc : s.cache? cache = some c) (clock : Instant) (outcome : Option (Except ε α)) :
    s.read? (.step clock outcome id) =
      some ⟨cache, key, (DurableStore.get s.store clock key).1⟩ := by
  simp only [read?, ht, hc, Option.isSome_some, if_true]

omit [Payload α] in
/-- Only a lookup that comes to the store reads it. -/
theorem read?_eq_none {s : System α ε σ} {id : Nat} {t : Task α ε} (ht : s.task? id = some t)
    (hreading : ∀ cache key now, t ≠ .lookup cache key now .reading) (clock : Instant)
    (outcome : Option (Except ε α)) : s.read? (.step clock outcome id) = none := by
  simp only [read?, ht]
  split
  · next cache key now heq => exact absurd (Option.some.inj heq) (hreading cache key now)
  · rfl

omit [Payload α] in
/-- The cache for which a lookup reads the store is there. -/
theorem exists_of_read? {s : System α ε σ} {ev : Event α ε σ} {r : StoreRead}
    (h : s.read? ev = some r) : ∃ c, s.cache? r.cache = some c := by
  cases ev with
  | step clock outcome id =>
    simp only [read?] at h
    split at h
    · split at h
      · next hsome =>
        cases h
        exact Option.isSome_iff_exists.mp hsome
      · cases h
    · cases h
  | _ => cases h

theorem reads_append (s : System α ε σ) (events more : List (Event α ε σ)) :
    s.reads (events ++ more) = s.reads events ++ (s.run events).reads more := by
  induction events generalizing s with
  | nil => rfl
  | cons e events ih =>
    rw [List.cons_append, reads, reads, ih, List.append_assoc]
    rfl

theorem writes_append (s : System α ε σ) (events more : List (Event α ε σ)) :
    s.writes (events ++ more) = s.writes events ++ (s.run events).writes more := by
  induction events generalizing s with
  | nil => rfl
  | cons e events ih =>
    rw [List.cons_append, writes, writes, ih, List.append_assoc]
    rfl

/-! ## Runs part by part -/

theorem run_concat (s : System α ε σ) (events : List (Event α ε σ)) (e : Event α ε σ) :
    s.run (events ++ [e]) = (s.run events).apply e := s.run_append events [e]

theorem history_concat (s : System α ε σ) (events : List (Event α ε σ)) (e : Event α ε σ) :
    s.history (events ++ [e]) = s.history events ++ (s.run events).news e := by
  rw [history_append]
  simp only [history, List.append_nil]

theorem reads_concat (s : System α ε σ) (events : List (Event α ε σ)) (e : Event α ε σ) :
    s.reads (events ++ [e]) = s.reads events ++ ((s.run events).read? e).toList := by
  rw [reads_append]
  simp only [reads, List.append_nil]

theorem writes_concat (s : System α ε σ) (events : List (Event α ε σ)) (e : Event α ε σ) :
    s.writes (events ++ [e]) = s.writes events ++ ((s.run events).write? e).toList := by
  rw [writes_append]
  simp only [writes, List.append_nil]

theorem history_split {s : System α ε σ} {events before after : List (Event α ε σ)}
    {e : Event α ε σ} (h : events = before ++ e :: after) :
    s.history events = s.history before ++ ((s.run before).news e ++
      ((s.run before).apply e).history after) := by
  rw [h, history_append, history]

theorem mem_reads_of_split {s : System α ε σ} {events before after : List (Event α ε σ)}
    {e : Event α ε σ} {r : StoreRead} (h : events = before ++ e :: after)
    (hr : (s.run before).read? e = some r) : r ∈ s.reads events := by
  rw [h, reads_append, reads, hr]
  simp

theorem mem_writes_of_split {s : System α ε σ} {events before after : List (Event α ε σ)}
    {e : Event α ε σ} {w : StoreWrite α} (h : events = before ++ e :: after)
    (hw : (s.run before).write? e = some w) : w ∈ s.writes events := by
  rw [h, writes_append, writes, hw]
  simp

end Access

/-- What holds at the start of a list, and of each part of it that is one element longer, holds
    of the whole list. -/
theorem prefix_induction {β : Type} {P : List β → Prop} {l : List β} (hnil : P [])
    (hconcat : ∀ before x after, l = before ++ x :: after → P before → P (before ++ [x])) :
    P l := by
  have hparts : ∀ before after, l = before ++ after → P before := by
    intro before
    induction before using List.reverseRecOn with
    | nil => exact fun _ _ => hnil
    | append_singleton before x ih =>
      intro after h
      rw [List.append_assoc, List.singleton_append] at h
      exact hconcat before x after h (ih _ h)
  exact hparts l [] (List.append_nil l).symm

end System

end MarketCache
