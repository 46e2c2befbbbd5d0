import Mathlib.Data.List.Basic
import MarketCache.Cache.System

/-!
# Runs of a system

A run is a list of events: a caller starts an operation, a task takes a step, a task is given
up, or the store changes on its own. What can be seen of a run is its history, the list of
what happened in it, the oldest first; it is told from the tasks before and after each step.

Main definitions:
* `System.Event`, `System.run`: the events and what they lead to.
* `Happening`, `System.history`: what happens in a run.

Results:
* `run_induction`: what each event keeps, a run keeps.
* `abort_induction`: what giving a task up keeps.
-/

namespace MarketCache

variable {α ε σ : Type}

namespace System

/-- New caches over a store, without tasks; each is given by its namespace, its settings, and the
    time one flush interval before its first pass is due. -/
def ofSpecs (store : σ) (specs : List (String × CacheSettings × Instant)) : System α ε σ :=
  ofCaches store (specs.map fun (space, settings, startedAt) => .start space settings startedAt)

/-- What moves a system on. -/
inductive Event (α ε σ : Type) where
  /-- A lookup of a query as of an instant is started. -/
  | lookup (cache : Nat) (q : LogicalQuery) (now : Instant)
  /-- A flush as of an instant is started. -/
  | flush (cache : Nat) (now : Instant)
  /-- A task that flushes from time to time is started. -/
  | maintain (cache : Nat) (intervalSecs : Nat)
  | invalidate (cache : Nat) (q : LogicalQuery)
  /-- A task takes a step; `outcome` is what the provider answers, if it has answered. -/
  | step (clock : Instant) (outcome : Option (Except ε α)) (id : Nat)
  /-- A task is given up. -/
  | abort (id : Nat)
  /-- The store changes on its own. -/
  | disturb (change : σ → σ)

/-- The system after an event. -/
def apply [Payload α] [DurableStore σ] (s : System α ε σ) : Event α ε σ → System α ε σ
  | .lookup cache q now => ((s.addLookup cache q now).map (·.2)).getD s
  | .flush cache now => (s.addFlush cache now).2
  | .maintain cache intervalSecs => (s.addMaintenance cache intervalSecs).2
  | .invalidate cache q =>
    match s.cache? cache with
    | some c => s.setCache cache (c.invalidate q).2
    | none => s
  | .step clock outcome id => s.step clock outcome id
  | .abort id => s.abort id
  | .disturb change => { s with store := change s.store }

/-- The system after some events. -/
def run [Payload α] [DurableStore σ] (s : System α ε σ) (events : List (Event α ε σ)) :
    System α ε σ :=
  events.foldl apply s

end System

deriving instance DecidableEq for DurableRead, Pass, LookupStage, FlushStage, Task

/-! ## What happens in a run -/

/-- What a task does that others can see. -/
inductive Happening (α ε : Type) where
  /-- A lookup was started. -/
  | asked (id cache : Nat) (q : LogicalQuery) (now : Instant)
  /-- A lookup asked the provider. -/
  | called (id : Nat)
  /-- A lookup kept what the provider answered: it is hot, and waits to be written. -/
  | fetched (id cache : Nat) (e : Entry α)
  | answered (id : Nat) (answer : Except ε (Lookup α))
  /-- A flush took over the passes in the background. -/
  | tookOver (id : Nat) (passes : List Nat)
  /-- A task took all that waited. -/
  | took (id cache : Nat)
  /-- A lookup handed its batch to a pass in the background. -/
  | handed (id pass : Nat)
  /-- A task attempted a write, and the store did not break down. -/
  | attempted (id : Nat) (w : PendingWrite α)
  /-- A task went down with the store. -/
  | broke (id : Nat)
deriving DecidableEq

/-- The number of the task. -/
def Happening.id : Happening α ε → Nat
  | .asked id _ _ _ => id
  | .called id => id
  | .fetched id _ _ => id
  | .answered id _ => id
  | .tookOver id _ => id
  | .took id _ => id
  | .handed id _ => id
  | .attempted id _ => id
  | .broke id => id

/-- What a step of the task of a number means, told from the task before and after it; `pass` is
    the number of the next task. -/
def Task.news (id pass : Nat) : Task α ε → Task α ε → List (Happening α ε)
  | .lookup _ _ _ (.judging _), .lookup _ _ _ .fetching => [.called id]
  | .lookup cache key now .fetching, .lookup _ _ _ (.closing (.ok a)) =>
    [.fetched id cache ⟨key, a.payload, now⟩]
  | .lookup cache _ _ (.closing _), .lookup _ _ _ (.detaching _ _) => [.took id cache]
  | .lookup cache _ _ (.closing _), .lookup _ _ _ (.writing _ _) => [.took id cache]
  | .lookup _ _ _ (.closing _), .answered answer => [.answered id answer]
  | .lookup _ _ _ (.detaching _ _), .answered answer => [.handed id pass, .answered id answer]
  | .lookup _ _ _ (.writing _ _), .answered answer => [.answered id answer]
  | .flush _ _ .starting, .flush _ _ (.joining passes) => [.tookOver id passes]
  | .flush cache _ .taking, .flush _ _ (.writing _) => [.took id cache]
  | .maintenance _ _ (some (_, .starting)), .maintenance _ _ (some (_, .joining passes)) =>
    [.tookOver id passes]
  | .maintenance cache _ (some (_, .taking)), .maintenance _ _ (some (_, .writing _)) =>
    [.took id cache]
  | before, after =>
    match before.pass?, after with
    | some _, .aborted => [.broke id]
    | some ⟨w :: rest, _⟩, after =>
      if after.pass?.map (·.rest.length) = some rest.length then [.attempted id w] else []
    | _, _ => []

namespace System

section History

variable [Payload α] [DurableStore σ]

/-- What happens in an event. -/
def news (s : System α ε σ) : Event α ε σ → List (Happening α ε)
  | .lookup cache q now => if (s.cache? cache).isSome then [.asked s.next cache q now] else []
  | .step clock outcome id =>
    match s.task? id, (s.step clock outcome id).task? id with
    | some before, some after => before.news id s.next after
    | _, _ => []
  | _ => []

/-- What happens in some events, the oldest first. -/
def history (s : System α ε σ) : List (Event α ε σ) → List (Happening α ε)
  | [] => []
  | e :: events => s.news e ++ (s.apply e).history events

theorem run_append (s : System α ε σ) (events more : List (Event α ε σ)) :
    s.run (events ++ more) = (s.run events).run more := List.foldl_append

theorem history_append (s : System α ε σ) (events more : List (Event α ε σ)) :
    s.history (events ++ more) = s.history events ++ (s.run events).history more := by
  induction events generalizing s with
  | nil => rfl
  | cons e events ih =>
    rw [List.cons_append, history, history, ih, List.append_assoc]
    rfl

/-- What each event keeps, a run keeps. -/
theorem run_induction {P : System α ε σ → List (Happening α ε) → Prop} {s : System α ε σ}
    {log : List (Happening α ε)} {events : List (Event α ε σ)} (hstart : P s log)
    (hstep : ∀ s log, ∀ e ∈ events, P s log → P (s.apply e) (log ++ s.news e)) :
    P (s.run events) (log ++ s.history events) := by
  induction events generalizing s log with
  | nil =>
    unfold history
    rw [List.append_nil]
    exact hstart
  | cons e events ih =>
    unfold history
    rw [← List.append_assoc]
    have hnext := hstep s log e List.mem_cons_self hstart
    exact ih hnext fun s log e' he' => hstep s log e' (List.mem_cons_of_mem e he')

end History

/-! ## The parts of a system after a change -/

section Parts

@[simp] theorem task?_setTask (s : System α ε σ) (id id' : Nat) (t : Task α ε) :
    (s.setTask id t).task? id' = if id = id' then some t else s.task? id' := by
  simp [task?, setTask, Std.ExtTreeMap.getElem?_insert]

theorem task?_setTask_self (s : System α ε σ) (id : Nat) (t : Task α ε) :
    (s.setTask id t).task? id = some t := (task?_setTask s id id t).trans (if_pos rfl)

theorem task?_add (s : System α ε σ) (t : Task α ε) (id : Nat) :
    (s.add t).2.task? id = if s.next = id then some t else s.task? id :=
  task?_setTask s s.next id t

theorem task?_add_self (s : System α ε σ) (t : Task α ε) : (s.add t).2.task? s.next = some t :=
  task?_setTask_self s s.next t

theorem task?_add_of_ne (s : System α ε σ) (t : Task α ε) {id : Nat} (h : id ≠ s.next) :
    (s.add t).2.task? id = s.task? id := (task?_add s t id).trans (if_neg (Ne.symm h))

@[simp] theorem cache?_setTask (s : System α ε σ) (id cache : Nat) (t : Task α ε) :
    (s.setTask id t).cache? cache = s.cache? cache := rfl

theorem cache?_setCache (s : System α ε σ) (cache cache' : Nat) (c : TieredCache α) :
    (s.setCache cache c).cache? cache' =
      if cache = cache' then (s.cache? cache').map fun _ => c else s.cache? cache' := by
  unfold cache? setCache
  rw [List.getElem?_modify]
  by_cases h : cache = cache'
  · simp only [if_pos h]
    cases s.slots[cache']? <;> rfl
  · simp only [if_neg h]
    cases s.slots[cache']? <;> rfl

theorem cache?_setCache_self {s : System α ε σ} {cache : Nat} {c : TieredCache α}
    (hc : s.cache? cache = some c) (c' : TieredCache α) :
    (s.setCache cache c').cache? cache = some c' := by
  rw [cache?_setCache, if_pos rfl, hc]
  rfl

/-- A system with another list of slots that has the same caches. -/
theorem cache?_modify_inFlight (s : System α ε σ) (cache cache' : Nat)
    (f : List Nat → List Nat) :
    ({ s with slots := s.slots.modify cache fun slot =>
      { slot with inFlight := f slot.inFlight } } : System α ε σ).cache? cache' =
      s.cache? cache' := by
  unfold cache?
  rw [List.getElem?_modify]
  by_cases h : cache = cache'
  · simp only [if_pos h]
    cases s.slots[cache']? <;> rfl
  · simp only [if_neg h]
    cases s.slots[cache']? <;> rfl

theorem cache?_setSlot (s : System α ε σ) (cache cache' : Nat) {slot : Slot α}
    (h : s.slots[cache]? = some slot) (passes : List Nat) :
    (s.setSlot cache { slot with inFlight := passes }).cache? cache' = s.cache? cache' := by
  unfold cache? setSlot
  by_cases hc : cache = cache'
  · have hlt : cache < s.slots.length := (List.getElem?_eq_some_iff.mp h).1
    rw [← hc, List.getElem?_set_self hlt, h]
    rfl
  · rw [List.getElem?_set_ne hc]

theorem exists_of_cache?_ofSpecs {store : σ} {specs : List (String × CacheSettings × Instant)}
    {cache : Nat} {c : TieredCache α}
    (h : (ofSpecs store specs : System α ε σ).cache? cache = some c) :
    ∃ space settings startedAt, c = .start space settings startedAt := by
  unfold cache? ofSpecs ofCaches at h
  rw [List.getElem?_map, List.getElem?_map] at h
  rcases hi : specs[cache]? with _ | ⟨space, settings, startedAt⟩
  · rw [hi] at h
    simp at h
  · rw [hi] at h
    cases h
    exact ⟨space, settings, startedAt, rfl⟩

@[simp] theorem task?_ofSpecs (store : σ) (specs : List (String × CacheSettings × Instant))
    (id : Nat) : (ofSpecs store specs : System α ε σ).task? id = none :=
  Std.ExtTreeMap.getElem?_empty

/-- What giving a task up keeps: the tasks that are set are not over, or are so already. -/
theorem abort_induction {P : System α ε σ → Prop} {s : System α ε σ} (hstart : P s)
    (hset : ∀ s id t, s.task? id = some t → t.isOver = false ∨ t = .aborted → P s →
      P (s.setTask id .aborted)) (id : Nat) : P (s.abort id) := by
  -- the task itself stays as it is, unless it is one of those that it waits for
  have hfold : ∀ (passes : List Nat) (s : System α ε σ),
      (∃ t, s.task? id = some t ∧ (t.isOver = false ∨ t = .aborted)) → P s →
      (∃ t, (passes.foldl (fun s p => if s.isOver p then s else s.setTask p .aborted) s).task? id =
        some t ∧ (t.isOver = false ∨ t = .aborted)) ∧
      P (passes.foldl (fun s p => if s.isOver p then s else s.setTask p .aborted) s) := by
    intro passes
    induction passes with
    | nil => exact fun s ht h => ⟨ht, h⟩
    | cons p passes ih =>
      intro s ht h
      rw [List.foldl_cons]
      rcases hp : s.task? p with _ | t
      · have hover : s.isOver p = true := by
          unfold isOver
          rw [hp]
          rfl
        rw [if_pos hover]
        exact ih s ht h
      · by_cases hover : s.isOver p = true
        · rw [if_pos hover]
          exact ih s ht h
        · rw [if_neg hover]
          have hlive : t.isOver = false := by
            unfold isOver at hover
            rw [hp] at hover
            exact Bool.not_eq_true _ ▸ hover
          refine ih _ ?_ (hset s p t hp (Or.inl hlive) h)
          rw [task?_setTask]
          split
          · exact ⟨.aborted, rfl, Or.inr rfl⟩
          · exact ht
  unfold abort
  split
  · exact hstart
  · next t ht =>
    by_cases hover : t.isOver = true
    · rw [if_pos hover]
      exact hstart
    · rw [if_neg hover]
      have hlive : t.isOver = false := Bool.not_eq_true _ ▸ hover
      obtain ⟨⟨t', ht', hset'⟩, h⟩ := hfold t.joined s ⟨t, ht, Or.inl hlive⟩ hstart
      exact hset _ id t' ht' hset' h

/-- Giving a task up changes nothing but tasks. -/
theorem abort_frame (s : System α ε σ) (id : Nat) : (s.abort id).store = s.store ∧
    (s.abort id).slots = s.slots ∧ (s.abort id).next = s.next :=
  abort_induction (P := fun s' => s'.store = s.store ∧ s'.slots = s.slots ∧ s'.next = s.next)
    ⟨rfl, rfl, rfl⟩ (fun _ _ _ _ _ h => h) id

/-- Giving a task up leaves every other task as it is, or gives it up too. -/
theorem task?_abort_cases (s : System α ε σ) (id k : Nat) :
    (s.abort id).task? k = s.task? k ∨
      (∃ t, s.task? k = some t ∧ t.isOver = false) ∧ (s.abort id).task? k = some .aborted := by
  refine abort_induction (P := fun s' => s'.task? k = s.task? k ∨
    (∃ t, s.task? k = some t ∧ t.isOver = false) ∧ s'.task? k = some .aborted)
    (Or.inl rfl) ?_ id
  intro s' id' t ht hset h
  rw [task?_setTask]
  by_cases hid : id' = k
  · subst hid
    rw [if_pos rfl]
    rcases h with h | ⟨hlive, -⟩
    · rcases hset with hlive | rfl
      · exact Or.inr ⟨⟨t, h ▸ ht, hlive⟩, rfl⟩
      · exact Or.inl (ht.symm.trans h)
    · exact Or.inr ⟨hlive, rfl⟩
  · rw [if_neg hid]
    exact h

end Parts

end System

end MarketCache
