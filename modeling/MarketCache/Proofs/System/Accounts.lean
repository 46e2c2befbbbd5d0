import Mathlib.Data.Finset.Card
import MarketCache.Proofs.System.Failures
import MarketCache.Proofs.System.HotKeys
import MarketCache.Proofs.WriteBack.Conservation

/-!
# What the statistics account for

The counters of a cache are raised by different tasks at different steps: by a lookup as it comes
past the tiers, by whoever takes a batch, and by a pass at its end. Each of them is told here
from what can be seen of a run without a look at the counters: the tasks, the history, and the
reads of the store. What is on its way at a moment is counted as well, so that the sums hold in
every state that a run comes to.

Main definitions:
* `Phase`, `System.inPhase`: how far lookups have come.
* `Task.held`, `System.held`: the records on their way to the store.
* `journal`: what was recorded and taken, told from the history.
* `System.LookupAccount`, `System.WriteAccount`: the invariants.
* `System.Accounts`: what the statistics say of a run.

Results:
* `apply_lookupAccount`, `Move.writeAccount`: an event keeps the sums.
* `account_run`: they hold in every state of a run.
* `accounts_run`: the statistics account for all that a run has done.
-/

namespace MarketCache

variable {α ε σ : Type}

/-- How far a lookup has come past the tiers. -/
inductive Phase where
  /-- It has not read the store. -/
  | early
  /-- It has read the store, and what it read is not judged. -/
  | judging
  /-- A tier had an answer, or the provider was asked. -/
  | past
deriving DecidableEq

/-- How far the lookup has come that a task is, or was before it answered. -/
def Task.phase? : Task α ε → Option Phase
  | .lookup _ _ _ .asking => some .early
  | .lookup _ _ _ .reading => some .early
  | .lookup _ _ _ (.judging _) => some .judging
  | .lookup _ _ _ _ => some .past
  | .answered _ => some .past
  | _ => none

/-- The number of records that a task has taken and the counters do not know of. -/
def Task.held (t : Task α ε) : Nat :=
  t.unwritten.length + (t.pass?.map fun p => p.report.written + p.report.failed).getD 0

/-- What bears on the places of the records of a cache. -/
def Happening.mark? : Happening α ε → Option (Mark α)
  | .fetched _ _ e => some (.recorded ⟨e, e.capturedAt⟩)
  | .took _ _ => some .taken
  | _ => none

/-- The journal of what happened to a single cache. -/
def journal (log : List (Happening α ε)) : List (Mark α) := log.filterMap Happening.mark?

/-- The records of a journal are what was fetched. -/
theorem length_writes_journal (log : List (Happening α ε)) :
    ((journal log).filterMap Mark.write?).length = log.countP (· matches .fetched _ _ _) := by
  induction log with
  | nil => rfl
  | cons x log ih =>
    rw [List.countP_cons]
    cases x with
    | fetched id cache e => exact congrArg (· + 1) ih
    | _ => exact ih

/-- The takes of a journal are those that happened. -/
theorem takes_journal (log : List (Happening α ε)) :
    Journal.takes (journal log) = log.countP (· matches .took _ _) := by
  induction log with
  | nil => rfl
  | cons x log ih =>
    rw [List.countP_cons]
    cases x with
    | took id cache => exact congrArg (· + 1) ih
    | _ => exact ih

namespace System

/-! ## Phases -/

/-- The number of lookups that have come to a phase and not further. -/
def inPhase (s : System α ε σ) (phase : Phase) : Nat :=
  s.total fun t => if t.phase? = some phase then 1 else 0

section Phases

variable {s : System α ε σ} {id : Nat} {t : Task α ε}

theorem inPhase_setTask (s₁ : System α ε σ) (htasks : s₁.tasks = s.tasks)
    (hnext : s₁.next = s.next) (hid : id < s.next) (ht : s.task? id = some t) (t' : Task α ε)
    (phase : Phase) :
    (s₁.setTask id t').inPhase phase + (if t.phase? = some phase then 1 else 0) =
      s.inPhase phase + (if t'.phase? = some phase then 1 else 0) :=
  total_setTask s₁ htasks hnext hid ht t' fun t => if t.phase? = some phase then 1 else 0

/-- A task is no lookup, or one past the tiers, or it asks, reads or judges. -/
theorem phase?_cases (t : Task α ε) : (∀ phase, t.phase? = some phase → phase = .past) ∨
    ∃ cache key now, t = .lookup cache key now .asking ∨ t = .lookup cache key now .reading ∨
      ∃ r, t = .lookup cache key now (.judging r) := by
  cases t with
  | lookup cache key now stage =>
    cases stage with
    | asking => exact Or.inr ⟨cache, key, now, Or.inl rfl⟩
    | reading => exact Or.inr ⟨cache, key, now, Or.inr (Or.inl rfl)⟩
    | judging r => exact Or.inr ⟨cache, key, now, Or.inr (Or.inr ⟨r, rfl⟩)⟩
    | _ => exact Or.inl fun phase h => (Option.some.inj h).symm
  | answered answer => exact Or.inl fun phase h => (Option.some.inj h).symm
  | _ => exact Or.inl fun phase h => by cases h

end Phases

/-! ## Lookups -/

/-- What the counters of lookups say: `log` is what has happened, `gets` the number of reads. -/
structure LookupAccount (s : System α ε σ) (log : List (Happening α ε)) (gets : Nat)
    (n : CacheStats) : Prop where
  past : n.hotHits + n.durableHits + n.misses = s.inPhase .past
  calls : n.misses = log.countP (· matches .called _)
  gets : n.durableHits + n.misses + s.inPhase .judging = gets
  errors : n.durableErrors ≤ n.misses

section Lookups

variable {s s' : System α ε σ} {clock : Instant} {outcome : Option (Except ε α)} {id gets : Nat}
  {t : Task α ε} {log more : List (Happening α ε)} {n : CacheStats} {c : TieredCache α}
  {cache : Nat} {key : String} {now : Instant}

theorem LookupAccount.congr (h : s.LookupAccount log gets n)
    (hpast : s'.inPhase .past = s.inPhase .past)
    (hjudging : s'.inPhase .judging = s.inPhase .judging)
    (hmore : more.countP (· matches .called _) = 0) :
    s'.LookupAccount (log ++ more) gets n where
  past := hpast.symm ▸ h.past
  calls := by
    rw [List.countP_append, hmore, Nat.add_zero]
    exact h.calls
  gets := hjudging.symm ▸ h.gets
  errors := h.errors

theorem LookupAccount.hotHit (h : s.LookupAccount log gets n)
    (hpast : s'.inPhase .past = s.inPhase .past + 1)
    (hjudging : s'.inPhase .judging = s.inPhase .judging) :
    s'.LookupAccount log gets n.recordHotHit where
  past := by
    rw [hpast, ← h.past]
    simp only [CacheStats.recordHotHit]
    omega
  calls := h.calls
  gets := hjudging.symm ▸ h.gets
  errors := h.errors

theorem LookupAccount.read (h : s.LookupAccount log gets n)
    (hpast : s'.inPhase .past = s.inPhase .past)
    (hjudging : s'.inPhase .judging = s.inPhase .judging + 1) :
    s'.LookupAccount log (gets + 1) n where
  past := hpast.symm ▸ h.past
  calls := h.calls
  gets := by
    rw [hjudging, ← h.gets]
    omega
  errors := h.errors

theorem LookupAccount.durableHit (h : s.LookupAccount log gets n)
    (hpast : s'.inPhase .past = s.inPhase .past + 1)
    (hjudging : s'.inPhase .judging + 1 = s.inPhase .judging) :
    s'.LookupAccount log gets n.recordDurableHit where
  past := by
    rw [hpast, ← h.past]
    simp only [CacheStats.recordDurableHit]
    omega
  calls := h.calls
  gets := by
    rw [← h.gets, ← hjudging]
    simp only [CacheStats.recordDurableHit]
    omega
  errors := h.errors

/-- A miss, with or without a failed read. -/
theorem LookupAccount.miss (h : s.LookupAccount log gets n) {n' : CacheStats}
    (hmiss : n' = n.recordMiss ∨ n' = n.recordDurableError.recordMiss)
    (hpast : s'.inPhase .past = s.inPhase .past + 1)
    (hjudging : s'.inPhase .judging + 1 = s.inPhase .judging) :
    s'.LookupAccount (log ++ [.called id]) gets n' := by
  have hsums : n'.hotHits = n.hotHits ∧ n'.durableHits = n.durableHits ∧
      n'.misses = n.misses + 1 ∧ n'.durableErrors ≤ n.durableErrors + 1 := by
    rcases hmiss with rfl | rfl
    · exact ⟨rfl, rfl, rfl, Nat.le_succ _⟩
    · exact ⟨rfl, rfl, rfl, Nat.le_refl _⟩
  obtain ⟨hhot, hdurable, hmisses, herrors⟩ := hsums
  have hbefore := h.past
  have hgets := h.gets
  have hle := h.errors
  refine ⟨by omega, ?_, by omega, by omega⟩
  rw [hmisses, h.calls, List.countP_append]
  rfl

/-- What a judgment does to the counters. -/
theorem counters_of_checkDurable (c : TieredCache α) (r : DurableRead α) (now : Instant) :
    (c.checkDurable r now).2.counters =
        (if (c.checkDurable r now).1.isSome then c.counters.recordDurableHit
          else c.counters.recordMiss) ∨
      (c.checkDurable r now).1 = none ∧
        (c.checkDurable r now).2.counters = c.counters.recordDurableError.recordMiss := by
  cases r with
  | absent => exact Or.inl rfl
  | found e =>
    rw [TieredCache.checkDurable]
    split <;> exact Or.inl rfl
  | failed => exact Or.inr ⟨rfl, rfl⟩

variable [Payload α] [DurableStore σ]

/-- A task that is no lookup, or one past the tiers, leaves the sums alone unless it breaks down. -/
theorem Turn.lookups_eq (hturn : Turn s clock id t more s') (hid : id < s.next)
    (ht : s.task? id = some t) (hone : ∀ k c, s.cache? k = some c → k = 0)
    (hc : s.cache? 0 = some c) (hbroke : .broke id ∉ more)
    (hphase : ∀ phase, t.phase? = some phase → phase = .past) :
    (∀ phase, s'.inPhase phase = s.inPhase phase) ∧ more.countP (· matches .called _) = 0 ∧
      ∃ c', s'.cache? 0 = some c' ∧ c'.counters = c.counters := by
  have hset : ∀ {s₁ : System α ε σ} {t' : Task α ε}, s₁.tasks = s.tasks → s₁.next = s.next →
      t'.phase? = t.phase? → ∀ phase, (s₁.setTask id t').inPhase phase = s.inPhase phase := by
    intro s₁ t' htasks hnext hsame phase
    have hsum := inPhase_setTask s₁ htasks hnext hid ht t' phase
    rw [hsame] at hsum
    exact Nat.add_right_cancel hsum
  have hkeep : ∀ {k c₁ c₂}, s.cache? k = some c₁ → c₂.counters = c₁.counters →
      ∃ c', (s.setCache k c₂).cache? 0 = some c' ∧ c'.counters = c.counters := by
    intro k c₁ c₂ hc₁ hsame
    obtain rfl := hone k c₁ hc₁
    cases hc.symm.trans hc₁
    exact ⟨c₂, cache?_setCache_self hc c₂, hsame⟩
  cases hturn with
  | idle => exact ⟨fun _ => rfl, rfl, c, hc, rfl⟩
  | hot hc₁ he hfresh => cases hphase _ rfl
  | cold hc₁ => cases hphase _ rfl
  | read store hget => cases hphase _ rfl
  | durable hc₁ hfresh => cases hphase _ rfl
  | call counters hc₁ => cases hphase _ rfl
  | fetched payload hc₁ => exact ⟨hset rfl rfl rfl, rfl, hkeep hc₁ rfl⟩
  | refused err => exact ⟨hset rfl rfl rfl, rfl, c, hc, rfl⟩
  | rest => exact ⟨hset rfl rfl rfl, rfl, c, hc, rfl⟩
  | hand hc₁ => exact ⟨hset rfl rfl rfl, rfl, hkeep hc₁ rfl⟩
  | begin hc₁ => exact ⟨hset rfl rfl rfl, rfl, hkeep hc₁ rfl⟩
  | @detach key now answer cache batch c₁ hc₁ =>
    refine ⟨fun phase => ?_, rfl, c, ?_, rfl⟩
    · have hsum := total_detach hid ht (.pass cache (.ofBatch batch)) (.answered answer)
        (s.slots.modify cache fun slot => { slot with inFlight := slot.inFlight ++ [s.next] })
        fun t => if t.phase? = some phase then 1 else 0
      exact Nat.add_right_cancel hsum
    · exact (cache?_modify_inFlight (s.add (.pass cache (.ofBatch batch))).2 cache 0
        (· ++ [s.next])).trans hc
  | write store hp hcache hc₁ hw ha =>
    refine ⟨hset rfl rfl ?_, rfl, c, hc, rfl⟩
    rcases writer_cases hp with ⟨_, _, _, _, rfl⟩ | ⟨_, _, rfl⟩ | ⟨_, rfl⟩ | ⟨_, _, _, rfl⟩ <;> rfl
  | broke store hp hcache hc₁ hw => exact absurd (List.mem_singleton_self _) hbroke
  | wrote hp hcache hc₁ =>
    refine ⟨hset rfl rfl ?_, ?_, hkeep hc₁ rfl⟩
    · rcases writer_cases hp with ⟨_, _, _, _, rfl⟩ | ⟨_, _, rfl⟩ | ⟨_, rfl⟩ | ⟨_, _, _, rfl⟩ <;>
        rfl
    · split <;> rfl
  | wake => exact ⟨hset rfl rfl rfl, rfl, c, hc, rfl⟩
  | takeOver hf hcache hslot =>
    refine ⟨hset rfl rfl ?_, rfl, c, (cache?_setSlot s _ 0 hslot []).trans hc, rfl⟩
    rcases flusher_cases hf with ⟨_, rfl⟩ | ⟨_, _, rfl⟩ <;> rfl
  | wait hf =>
    refine ⟨hset rfl rfl ?_, rfl, c, hc, rfl⟩
    rcases flusher_cases hf with ⟨_, rfl⟩ | ⟨_, _, rfl⟩ <;> rfl
  | join hf hover =>
    refine ⟨hset rfl rfl ?_, rfl, c, hc, rfl⟩
    rcases flusher_cases hf with ⟨_, rfl⟩ | ⟨_, _, rfl⟩ <;> rfl
  | take hf hcache hc₁ =>
    refine ⟨hset rfl rfl ?_, rfl, hkeep hc₁ rfl⟩
    rcases flusher_cases hf with ⟨_, rfl⟩ | ⟨_, _, rfl⟩ <;> rfl

/-- A lookup asks the hot tier. -/
theorem asking_account (ht : s.task? id = some (.lookup cache key now .asking)) (hid : id < s.next)
    (hone : ∀ k c, s.cache? k = some c → k = 0) (hc : s.cache? 0 = some c)
    (h : s.LookupAccount log gets c.counters) :
    ∃ c', (s.step clock outcome id).cache? 0 = some c' ∧
      (s.step clock outcome id).LookupAccount (log ++ s.news (.step clock outcome id)) gets
        c'.counters := by
  have hturn : Turn s clock id _ (s.news (.step clock outcome id)) (s.step clock outcome id) :=
    step_turn ht
  generalize s.step clock outcome id = s', s.news (.step clock outcome id) = more at hturn
  cases hturn with
  | idle => exact ⟨c, hc, h.congr rfl rfl rfl⟩
  | @hot _ _ _ c₁ e hc₁ he hfresh =>
    obtain rfl := hone cache c₁ hc₁
    cases hc.symm.trans hc₁
    have hsum := inPhase_setTask (s.setCache 0 { c with counters := c.counters.recordHotHit }) rfl
      rfl hid ht (.lookup 0 key now (.closing (.ok (.cached e))))
    rw [List.append_nil]
    exact ⟨_, cache?_setCache_self hc _, h.hotHit (hsum .past) (hsum .judging)⟩
  | @cold _ _ _ c₁ hc₁ =>
    obtain rfl := hone cache c₁ hc₁
    cases hc.symm.trans hc₁
    have hsum := inPhase_setTask (s.setCache 0 c) rfl rfl hid ht (.lookup 0 key now .reading)
    exact ⟨c, cache?_setCache_self hc c, h.congr (hsum .past) (hsum .judging) rfl⟩
  | write store hp => cases hp
  | broke store hp => cases hp
  | wrote hp => cases hp
  | takeOver hf => cases hf
  | wait hf => cases hf
  | join hf => cases hf
  | take hf => cases hf

/-- A lookup reads the store. -/
theorem reading_account (ht : s.task? id = some (.lookup cache key now .reading))
    (hid : id < s.next) (hone : ∀ k c, s.cache? k = some c → k = 0) (hc : s.cache? 0 = some c)
    (h : s.LookupAccount log gets c.counters) :
    ∃ c', (s.step clock outcome id).cache? 0 = some c' ∧
      (s.step clock outcome id).LookupAccount (log ++ s.news (.step clock outcome id))
        (gets + (s.read? (.step clock outcome id)).toList.length) c'.counters := by
  rcases hcache : s.cache? cache with _ | c₁
  · have hidle : s.step clock outcome id = s := by simp only [step, ht, hcache]
    have hread : s.read? (.step clock outcome id) = none := by
      simp only [read?, ht, hcache, Option.isSome_none, Bool.false_eq_true, if_false]
    rw [news_idle ht hidle, hidle, hread]
    exact ⟨c, hc, h.congr rfl rfl rfl⟩
  obtain rfl := hone cache c₁ hcache
  have hstep : s.step clock outcome id =
      setTask { s with store := (DurableStore.get s.store clock key).2 } id
        (.lookup 0 key now (.judging (.ofBytes (DurableStore.get s.store clock key).1))) := by
    simp only [step, ht, hc, stepLookup]
  have hsum := inPhase_setTask { s with store := (DurableStore.get s.store clock key).2 } rfl rfl
    hid ht (.lookup 0 key now (.judging (.ofBytes (DurableStore.get s.store clock key).1)))
  have hnews : s.news (.step clock outcome id) = [] := news_step ht hstep
  rw [hnews, read?_of_task? ht hc, hstep, List.append_nil]
  exact ⟨c, hc, h.read (hsum .past) (hsum .judging)⟩

/-- A lookup judges what it has read. -/
theorem judging_account {r : DurableRead α}
    (ht : s.task? id = some (.lookup cache key now (.judging r))) (hid : id < s.next)
    (hone : ∀ k c, s.cache? k = some c → k = 0) (hc : s.cache? 0 = some c)
    (h : s.LookupAccount log gets c.counters) :
    ∃ c', (s.step clock outcome id).cache? 0 = some c' ∧
      (s.step clock outcome id).LookupAccount (log ++ s.news (.step clock outcome id)) gets
        c'.counters := by
  rcases hcache : s.cache? cache with _ | c₁
  · have hidle : s.step clock outcome id = s := by simp only [step, ht, hcache]
    rw [news_idle ht hidle, hidle]
    exact ⟨c, hc, h.congr rfl rfl rfl⟩
  obtain rfl := hone cache c₁ hcache
  have hcounters := counters_of_checkDurable c r now
  rcases hjudge : c.checkDurable r now with ⟨_ | e, c'⟩
  · have hstep : s.step clock outcome id =
        (s.setCache 0 c').setTask id (.lookup 0 key now .fetching) := by
      simp only [step, ht, hc, stepLookup, hjudge]
    have hsum := inPhase_setTask (s.setCache 0 c') rfl rfl hid ht (.lookup 0 key now .fetching)
    have hmiss : c'.counters = c.counters.recordMiss ∨
        c'.counters = c.counters.recordDurableError.recordMiss := by
      rw [hjudge] at hcounters
      exact hcounters.imp_right (·.2)
    have hnews : s.news (.step clock outcome id) = [.called id] := news_step ht hstep
    rw [hnews, hstep]
    exact ⟨c', cache?_setCache_self hc c', h.miss hmiss (hsum .past) (hsum .judging)⟩
  · have hstep : s.step clock outcome id =
        (s.setCache 0 c').setTask id (.lookup 0 key now (.closing (.ok (.cached e)))) := by
      simp only [step, ht, hc, stepLookup, hjudge]
    have hsum := inPhase_setTask (s.setCache 0 c') rfl rfl hid ht
      (.lookup 0 key now (.closing (.ok (.cached e))))
    have hhit : c'.counters = c.counters.recordDurableHit := by
      rw [hjudge] at hcounters
      rcases hcounters with hhit | ⟨hnone, -⟩
      · exact hhit
      · cases hnone
    have hnews : s.news (.step clock outcome id) = [] := news_step ht hstep
    rw [hnews, hstep, List.append_nil]
    exact ⟨c', cache?_setCache_self hc c', hhit ▸ h.durableHit (hsum .past) (hsum .judging)⟩

/-- A step of a task keeps the sums, unless the task breaks down. -/
theorem step_lookupAccount (hn : ∀ t, s.task? id = some t → id < s.next)
    (hone : ∀ k c, s.cache? k = some c → k = 0) (hc : s.cache? 0 = some c)
    (hbroke : .broke id ∉ s.news (.step clock outcome id))
    (h : s.LookupAccount log gets c.counters) :
    ∃ c', (s.step clock outcome id).cache? 0 = some c' ∧
      (s.step clock outcome id).LookupAccount (log ++ s.news (.step clock outcome id))
        (gets + (s.read? (.step clock outcome id)).toList.length) c'.counters := by
  rcases ht : s.task? id with _ | t
  · have hidle : s.step clock outcome id = s := by simp only [step, ht]
    have hnews : s.news (.step clock outcome id) = [] := by simp only [news, ht]
    have hread : s.read? (.step clock outcome id) = none := by simp only [read?, ht]
    rw [hidle, hnews, hread]
    exact ⟨c, hc, h.congr rfl rfl rfl⟩
  have hid := hn t ht
  rcases phase?_cases t with hpast | ⟨cache, key, now, rfl | rfl | ⟨r, rfl⟩⟩
  · rw [read?_eq_none ht (by rintro _ _ _ rfl; cases hpast _ rfl)]
    obtain ⟨hphase, hcalls, c', hc', hsame⟩ :=
      (step_turn ht).lookups_eq hid ht hone hc hbroke hpast
    exact ⟨c', hc', hsame ▸ h.congr (hphase .past) (hphase .judging) hcalls⟩
  · rw [read?_eq_none ht (by simp)]
    exact asking_account ht hid hone hc h
  · exact reading_account ht hid hone hc h
  · rw [read?_eq_none ht (by simp)]
    exact judging_account ht hid hone hc h

/-- An event that gives no task up keeps the sums. -/
theorem apply_lookupAccount {ev : Event α ε σ} (hn : ∀ id t, s.task? id = some t → id < s.next)
    (hone : ∀ k c, s.cache? k = some c → k = 0) (hc : s.cache? 0 = some c)
    (habort : ∀ id, ev ≠ .abort id) (hbroke : ∀ id, .broke id ∉ s.news ev)
    (h : s.LookupAccount log gets c.counters) :
    ∃ c', (s.apply ev).cache? 0 = some c' ∧
      (s.apply ev).LookupAccount (log ++ s.news ev) (gets + (s.read? ev).toList.length)
        c'.counters := by
  by_cases hstep : ∃ clock outcome id, ev = .step clock outcome id
  · obtain ⟨clock, outcome, id, rfl⟩ := hstep
    exact step_lookupAccount (hn id) hone hc (hbroke id) h
  have hread : s.read? ev = none := by
    cases ev with
    | step clock outcome id => exact absurd ⟨clock, outcome, id, rfl⟩ hstep
    | _ => rfl
  rw [hread]
  have hmove := apply_move s ev
  generalize s.apply ev = s', s.news ev = more at hmove
  cases hmove with
  | idle => exact ⟨c, hc, h.congr rfl rfl rfl⟩
  | lookup hc₁ => exact ⟨c, hc, h.congr (total_add _ _) (total_add _ _) rfl⟩
  | flush => exact ⟨c, hc, h.congr (total_add _ _) (total_add _ _) rfl⟩
  | maintain => exact ⟨c, hc, h.congr (total_add _ _) (total_add _ _) rfl⟩
  | invalidate hc₁ =>
    obtain rfl := hone _ _ hc₁
    cases hc.symm.trans hc₁
    exact ⟨_, cache?_setCache_self hc _, h.congr rfl rfl rfl⟩
  | step ht hturn => exact absurd ⟨_, _, _, rfl⟩ hstep
  | abort => exact absurd rfl (habort _)
  | disturb => exact ⟨c, hc, h.congr rfl rfl rfl⟩

end Lookups

/-! ## Records on their way -/

/-- The number of records that tasks have taken and the counters do not know of. -/
def held (s : System α ε σ) : Nat := s.total Task.held

/-- What the counters of a write-back say, given what has happened. -/
structure WriteAccount (s : System α ε σ) (log : List (Happening α ε)) (w : WriteBack α) :
    Prop where
  keyed : w.Keyed
  latest : ∀ key, w.pendingFor? key = Journal.latest key (journal log)
  takes : w.flushes = Journal.takes (journal log)
  taken : Journal.takenCount (journal log) = s.held + w.flushedEntries + w.flushFailures

section Held

variable {t : Task α ε} {p : Pass α} {now : Instant} {stage : FlushStage α}

theorem held_of_pass? (hp : t.pass? = some p) :
    t.held = p.rest.length + (p.report.written + p.report.failed) := by
  unfold Task.held
  rw [unwritten_of_pass? hp, hp]
  rfl

theorem held_afterPass (hp : t.pass? = some p) (r : FlushReport) : (t.afterPass r).held = 0 := by
  rcases writer_cases hp with ⟨_, _, _, _, rfl⟩ | ⟨_, _, rfl⟩ | ⟨_, rfl⟩ | ⟨_, _, _, rfl⟩ <;> rfl

theorem held_withFlush (hf : t.flushing? = some (now, stage)) (stage' : FlushStage α) :
    (t.withFlush stage').held = (Task.flush 0 now stage' : Task α ε).held := by
  rcases flusher_cases hf with ⟨_, rfl⟩ | ⟨_, _, rfl⟩ <;> cases stage' <;> rfl

theorem held_of_flushing? (hf : t.flushing? = some (now, stage)) :
    t.held = (Task.flush 0 now stage : Task α ε).held := by
  rcases flusher_cases hf with ⟨_, rfl⟩ | ⟨_, _, rfl⟩ <;> cases stage <;> rfl

end Held

section Writes

variable {s s' : System α ε σ} {clock : Instant} {id : Nat} {t : Task α ε}
  {log more : List (Happening α ε)} {c : TieredCache α} {w : WriteBack α}

/-- What happens beside fetches and takes leaves the journal as it is. -/
theorem journal_append (log : List (Happening α ε)) (hmore : journal more = []) :
    journal (log ++ more) = journal log := by
  unfold journal at hmore ⊢
  rw [List.filterMap_append, hmore, List.append_nil]

theorem WriteAccount.congr (h : s.WriteAccount log w) (hheld : s'.held = s.held)
    (hmore : journal more = []) : s'.WriteAccount (log ++ more) w where
  keyed := h.keyed
  latest := journal_append log hmore ▸ h.latest
  takes := journal_append log hmore ▸ h.takes
  taken := by
    rw [journal_append log hmore, hheld]
    exact h.taken

/-- The number of records that wait is what the journal makes of it. -/
theorem WriteAccount.pendingCount_eq (h : s.WriteAccount log w) :
    w.pendingCount = (Journal.writesAt .waiting (journal log)).length := by
  have hperm := w.batch_perm_waiting.trans (WriteBack.writesAt_waiting_perm h.keyed h.latest).symm
  rw [← w.length_batch, hperm.length_eq]

theorem journal_concat (log : List (Happening α ε)) (x : Happening α ε) :
    journal (log ++ [x]) = journal log ++ x.mark?.toList := by
  unfold journal
  rw [List.filterMap_append]
  cases hx : x.mark? <;> simp [hx]

/-- A record that was fetched waits. -/
theorem WriteAccount.recorded (h : s.WriteAccount log w) (hheld : s'.held = s.held) (e : Entry α)
    (cache : Nat) : s'.WriteAccount (log ++ [.fetched id cache e]) (w.record e e.capturedAt) where
  keyed := h.keyed.record e e.capturedAt
  latest key := by
    rw [WriteBack.pendingFor?_record, journal_concat, h.latest]
    exact (Journal.latest_append_recorded key (journal log) ⟨e, e.capturedAt⟩).symm
  takes := by
    rw [journal_concat, Journal.takes_append]
    exact h.takes
  taken := by
    rw [journal_concat, hheld]
    exact (Journal.takenCount_append_recorded _ _).trans h.taken

/-- A task takes all that waits. -/
theorem WriteAccount.took (h : s.WriteAccount log w)
    (hheld : s'.held = s.held + w.batch.length) (now : Instant) (cache : Nat) :
    s'.WriteAccount (log ++ [.took id cache]) (w.takeAll now).2 where
  keyed := WriteBack.keyed_takeAll w now
  latest key := by
    rw [WriteBack.pendingFor?_takeAll, journal_concat]
    exact (Journal.latest_append_taken key (journal log)).symm
  takes := by
    rw [journal_concat, Journal.takes_append]
    exact congrArg (· + 1) h.takes
  taken := by
    rw [journal_concat]
    have htaken := Journal.takenCount_append_taken (journal log)
    have hbefore := h.taken
    rw [← h.pendingCount_eq, ← w.length_batch] at htaken
    show Journal.takenCount (journal log ++ [.taken]) = s'.held + w.flushedEntries + w.flushFailures
    omega

/-- A pass comes to its end. -/
theorem WriteAccount.settled (h : s.WriteAccount log w) {r : FlushReport}
    (hheld : s'.held + (r.written + r.failed) = s.held) (hmore : journal more = []) :
    s'.WriteAccount (log ++ more) (w.settle r) where
  keyed := h.keyed.settle r
  latest := journal_append log hmore ▸ h.latest
  takes := journal_append log hmore ▸ h.takes
  taken := by
    have hbefore := h.taken
    rw [journal_append log hmore]
    show _ = s'.held + (w.flushedEntries + r.written) + (w.flushFailures + r.failed)
    omega

variable [Payload α] [DurableStore σ]

/-- A step of a task keeps the sums, unless the task breaks down. -/
theorem Turn.writeAccount (hturn : Turn s clock id t more s') (hid : id < s.next)
    (ht : s.task? id = some t) (hone : ∀ k c, s.cache? k = some c → k = 0)
    (hc : s.cache? 0 = some c) (hbroke : .broke id ∉ more) (h : s.WriteAccount log c.writeBack) :
    ∃ c', s'.cache? 0 = some c' ∧ s'.WriteAccount (log ++ more) c'.writeBack := by
  have hset : ∀ {s₁ : System α ε σ} {t' : Task α ε}, s₁.tasks = s.tasks → s₁.next = s.next →
      t'.held = t.held → (s₁.setTask id t').held = s.held := by
    intro s₁ t' htasks hnext hsame
    have hsum := total_setTask s₁ htasks hnext hid ht t' Task.held
    rw [hsame] at hsum
    exact Nat.add_right_cancel hsum
  have htake : ∀ {t' : Task α ε} {k c₁ now}, s.cache? k = some c₁ → t.held = 0 →
      t'.held = c₁.writeBack.batch.length →
      ∃ c', ((s.setCache k (c₁.takeAll now).2).setTask id t').cache? 0 = some c' ∧
        ((s.setCache k (c₁.takeAll now).2).setTask id t').WriteAccount (log ++ [.took id k])
          c'.writeBack := by
    intro t' k c₁ now hc₁ hbefore hafter
    obtain rfl := hone k c₁ hc₁
    cases hc.symm.trans hc₁
    refine ⟨_, cache?_setCache_self hc _, h.took ?_ now 0⟩
    have hsum := total_setTask (s.setCache 0 (c.takeAll now).2) rfl rfl hid ht t' Task.held
    rw [hbefore, hafter] at hsum
    exact hsum
  have hkeep : ∀ {k c₁ c₂ t'}, s.cache? k = some c₁ → c₂.writeBack = c₁.writeBack →
      t'.held = t.held → journal more = [] →
      ∃ c', ((s.setCache k c₂).setTask id t').cache? 0 = some c' ∧
        ((s.setCache k c₂).setTask id t').WriteAccount (log ++ more) c'.writeBack := by
    intro k c₁ c₂ t' hc₁ hsame hheld hmore
    obtain rfl := hone k c₁ hc₁
    cases hc.symm.trans hc₁
    exact ⟨c₂, cache?_setCache_self hc c₂, hsame ▸ h.congr (hset rfl rfl hheld) hmore⟩
  cases hturn with
  | idle => exact ⟨c, hc, h.congr rfl rfl⟩
  | hot hc₁ he hfresh => exact hkeep hc₁ rfl rfl rfl
  | cold hc₁ => exact hkeep hc₁ rfl rfl rfl
  | read store hget => exact ⟨c, hc, h.congr (hset rfl rfl rfl) rfl⟩
  | durable hc₁ hfresh => exact hkeep hc₁ rfl rfl rfl
  | call counters hc₁ => exact hkeep hc₁ rfl rfl rfl
  | @fetched cache key now c₁ payload hc₁ =>
    obtain rfl := hone cache c₁ hc₁
    cases hc.symm.trans hc₁
    refine ⟨_, cache?_setCache_self hc _, h.recorded ?_ ⟨key, payload, now⟩ 0⟩
    exact hset rfl rfl rfl
  | refused err => exact ⟨c, hc, h.congr (hset rfl rfl rfl) rfl⟩
  | rest => exact ⟨c, hc, h.congr (hset rfl rfl rfl) rfl⟩
  | hand hc₁ => exact htake hc₁ rfl rfl
  | begin hc₁ => exact htake hc₁ rfl rfl
  | @detach key now answer cache batch c₁ hc₁ =>
    refine ⟨c, ?_, h.congr ?_ rfl⟩
    · exact (cache?_modify_inFlight (s.add (.pass cache (.ofBatch batch))).2 cache 0
        (· ++ [s.next])).trans hc
    · have hsum := total_detach hid ht (.pass cache (.ofBatch batch)) (.answered answer)
        (s.slots.modify cache fun slot => { slot with inFlight := slot.inFlight ++ [s.next] })
        Task.held
      exact Nat.add_right_cancel hsum
  | @write _ cache c₁ w rest r a store hp hcache hc₁ hw ha =>
    refine ⟨c, hc, h.congr (hset rfl rfl ?_) rfl⟩
    have hsum := WriteBack.tally_sum r ha
    rw [held_of_pass? (pass?_withPass hp _), held_of_pass? hp, List.length_cons]
    show rest.length + ((r.tally a).written + (r.tally a).failed) =
      rest.length + 1 + (r.written + r.failed)
    omega
  | broke store hp hcache hc₁ hw => exact absurd (List.mem_singleton_self _) hbroke
  | @wrote _ cache c₁ r hp hcache hc₁ =>
    obtain rfl := hone cache c₁ hc₁
    cases hc.symm.trans hc₁
    refine ⟨_, cache?_setCache_self hc _, h.settled ?_ ?_⟩
    · have hsum := total_setTask (s.setCache 0 (c.settle r)) rfl rfl hid ht (t.afterPass r)
        Task.held
      rw [held_afterPass hp, held_of_pass? hp, List.length_nil, Nat.zero_add] at hsum
      exact hsum
    · split <;> rfl
  | wake => exact ⟨c, hc, h.congr (hset rfl rfl rfl) rfl⟩
  | takeOver hf hcache hslot =>
    refine ⟨c, (cache?_setSlot s _ 0 hslot []).trans hc, h.congr (hset rfl rfl ?_) rfl⟩
    rw [held_withFlush hf, held_of_flushing? hf]
    rfl
  | wait hf =>
    exact ⟨c, hc, h.congr (hset rfl rfl ((held_withFlush hf _).trans (held_of_flushing? hf).symm))
      rfl⟩
  | join hf hover =>
    refine ⟨c, hc, h.congr (hset rfl rfl ?_) rfl⟩
    rw [held_withFlush hf, held_of_flushing? hf]
    rfl
  | take hf hcache hc₁ => exact htake hc₁ (held_of_flushing? hf) (held_withFlush hf _)

/-- An event that gives no task up keeps the sums, unless a task breaks down. -/
theorem Move.writeAccount {ev : Event α ε σ} (hmove : Move s ev more s')
    (hn : ∀ id t, s.task? id = some t → id < s.next)
    (hone : ∀ k c, s.cache? k = some c → k = 0) (hc : s.cache? 0 = some c)
    (habort : ∀ id, ev ≠ .abort id) (hbroke : ∀ id, .broke id ∉ more)
    (h : s.WriteAccount log c.writeBack) :
    ∃ c', s'.cache? 0 = some c' ∧ s'.WriteAccount (log ++ more) c'.writeBack := by
  cases hmove with
  | idle => exact ⟨c, hc, h.congr rfl rfl⟩
  | lookup hc₁ => exact ⟨c, hc, h.congr (total_add _ _) rfl⟩
  | flush => exact ⟨c, hc, h.congr (total_add _ _) rfl⟩
  | maintain => exact ⟨c, hc, h.congr (total_add _ _) rfl⟩
  | invalidate hc₁ =>
    obtain rfl := hone _ _ hc₁
    cases hc.symm.trans hc₁
    exact ⟨_, cache?_setCache_self hc _, h.congr rfl rfl⟩
  | @step clock outcome id t _ _ ht hturn =>
    exact hturn.writeAccount (hn id t ht) ht hone hc (hbroke id) h
  | abort => exact absurd rfl (habort _)
  | disturb => exact ⟨c, hc, h.congr rfl rfl⟩

end Writes

/-! ## The statistics -/

section Statistics

variable [Payload α] [DurableStore σ]

/-- What the statistics of a single cache say of a run. -/
structure Accounts (s₀ : System α ε σ) (space : String) (events : List (Event α ε σ))
    (stats : CacheStats) : Prop where
  /-- Each lookup past the tiers was a hit of one of them or a miss. -/
  lookups : stats.hotHits + stats.durableHits + stats.misses = (s₀.run events).inPhase .past
  /-- Each miss asked the provider. -/
  misses : stats.misses = (s₀.history events).countP (· matches .called _)
  /-- Each read of the store was a hit or a miss, as soon as it is judged. -/
  reads : (∀ id t, (s₀.run events).task? id = some t → t.phase? ≠ some .judging) →
    stats.durableHits + stats.misses = (s₀.reads events).length
  /-- Each failed read was counted, as soon as it is judged. -/
  errors : (∀ id t, (s₀.run events).task? id = some t → t.phase? ≠ some .judging) →
    stats.durableErrors = (s₀.reads events).countP fun r => r.isFailed α
  errors_le : stats.durableErrors ≤ stats.misses
  flushes : stats.flushes = (s₀.history events).countP (· matches .took _ _)
  writes_le : stats.flushedEntries + stats.flushFailures + stats.pendingWrites ≤
    (s₀.history events).countP (· matches .fetched _ _ _)
  /-- Nothing that was fetched is missing while no pass is running, but for what was superseded. -/
  writes : (∀ id t, (s₀.run events).task? id = some t → t.pass? = none ∧ t.unwritten = []) →
    stats.flushedEntries + stats.flushFailures + stats.pendingWrites +
        (Journal.writesAt .superseded (journal (s₀.history events))).length =
      (s₀.history events).countP (· matches .fetched _ _ _)
  /-- The hot entries are those of the keys that were made hot and not invalidated since. -/
  hot : (∀ r ∈ s₀.reads events, (r.entry? α).all (·.key = r.key) = true) →
    ∃ keys : Finset String, keys.card = stats.hotEntries ∧
      ∀ key, key ∈ keys ↔ s₀.KeptHot space events key

variable {space : String} {settings : CacheSettings} {startedAt : Instant} {store : σ}
  {s₀ : System α ε σ} {events : List (Event α ε σ)}

/-- The sums of a run in which no task is given up or breaks down. -/
theorem account_run (hstart : s₀ = single store space settings startedAt)
    (habort : ∀ id, .abort id ∉ events) (hbroke : ∀ id, .broke id ∉ s₀.history events) :
    ∃ c, (s₀.run events).cache? 0 = some c ∧
      (s₀.run events).LookupAccount (s₀.history events) (s₀.reads events).length c.counters ∧
      (s₀.run events).WriteAccount (s₀.history events) c.writeBack := by
  refine prefix_induction (P := fun part => ∃ c, (s₀.run part).cache? 0 = some c ∧
    (s₀.run part).LookupAccount (s₀.history part) (s₀.reads part).length c.counters ∧
    (s₀.run part).WriteAccount (s₀.history part) c.writeBack) ?_ ?_
  · subst hstart
    refine ⟨_, rfl, ⟨rfl, rfl, rfl, Nat.le_refl _⟩, ?_, fun key => ?_, rfl, rfl⟩
    · exact WriteBack.keyed_start _ _ _
    · exact WriteBack.pendingFor?_start _ _ _ key
  · rintro before ev after hsplit ⟨c, hc, hlookups, hwrites⟩
    have hn := (numbered_run store [(space, settings, startedAt)] before).tasks
    have hone : ∀ k c, (s₀.run before).cache? k = some c → k = 0 := fun k c hc => by
      subst hstart
      exact (eq_zero_of_single hc).1
    have habort' : ∀ id, ev ≠ .abort id := fun id heq =>
      habort id (hsplit ▸ List.mem_append_right _ (heq ▸ List.mem_cons_self))
    have hbroke' : ∀ id, .broke id ∉ (s₀.run before).news ev := fun id hmem => by
      refine hbroke id ?_
      rw [history_split hsplit]
      exact List.mem_append_right _ (List.mem_append_left _ hmem)
    rw [run_concat, history_concat, reads_concat, List.length_append]
    obtain ⟨c₁, hc₁, hlookups'⟩ :=
      apply_lookupAccount (hstart ▸ hn) hone hc habort' hbroke' hlookups
    obtain ⟨c₂, hc₂, hwrites'⟩ :=
      (apply_move (s₀.run before) ev).writeAccount (hstart ▸ hn) hone hc habort' hbroke' hwrites
    cases hc₁.symm.trans hc₂
    exact ⟨c₁, hc₁, hlookups', hwrites'⟩

/-- All reads of a run of a single cache are its own. -/
theorem cache_of_mem_reads (hstart : s₀ = single store space settings startedAt) {r : StoreRead}
    (hr : r ∈ s₀.reads events) : r.cache = 0 := by
  revert r
  refine prefix_induction (P := fun part => ∀ {r}, r ∈ s₀.reads part → r.cache = 0)
    (fun hr => absurd hr List.not_mem_nil) fun before ev after _ ih r hr => ?_
  rw [reads_concat] at hr
  rcases List.mem_append.mp hr with hold | hnew
  · exact ih hold
  · obtain ⟨c, hc⟩ := exists_of_read? (Option.mem_toList.mp hnew)
    subst hstart
    exact (eq_zero_of_single hc).1

omit [Payload α] in
theorem phase?_of_isUnjudged {t : Task α ε} {k : Nat} (h : t.isUnjudged k = true) :
    t.phase? = some .judging := by
  cases t with
  | lookup cache key now stage =>
    cases stage with
    | judging r => rfl
    | _ => cases h
  | _ => cases h

/-- The failed reads of a single cache, those that are counted and those that are not yet. -/
theorem errors_single (hstart : s₀ = single store space settings startedAt)
    (habort : ∀ id, .abort id ∉ events) :
    (s₀.run events).errors 0 = (s₀.reads events).countP fun r => r.isFailed α := by
  have herrors : (s₀.run events).errors 0 =
      (s₀.reads events).countP fun r => r.cache = 0 && r.isFailed α := by
    subst hstart
    exact errors_run store _ habort 0
  rw [herrors]
  refine List.countP_congr fun r hr => ?_
  rw [cache_of_mem_reads hstart hr]
  rfl

/-- Whatever a single cache goes through, and whatever its store and its provider do, the statistics
    account for each lookup, each read, each pass, each record and each hot key, as long as no
    write breaks the store down. -/
theorem accounts_run (hstart : s₀ = single store space settings startedAt)
    (habort : ∀ id, .abort id ∉ events) (hbroke : ∀ id, .broke id ∉ s₀.history events) :
    ∃ c, (s₀.run events).cache? 0 = some c ∧ s₀.Accounts space events c.stats := by
  obtain ⟨c, hc, hlookups, hwrites⟩ := account_run hstart habort hbroke
  have hwaiting := hwrites.pendingCount_eq
  have htaken := hwrites.taken
  have hplaces := Journal.length_writes (journal (s₀.history events))
  rw [length_writes_journal] at hplaces
  refine ⟨c, hc, hlookups.past, hlookups.calls, fun hnone => ?_, fun hnone => ?_, hlookups.errors,
    hwrites.takes.trans (takes_journal _), ?_, fun hnone => ?_, fun hreads => ?_⟩
  · have hjudging : (s₀.run events).inPhase .judging = 0 :=
      total_eq_zero fun id t ht => if_neg (hnone id t ht)
    have hgets := hlookups.gets
    rw [hjudging] at hgets
    exact hgets
  · have hunjudged : (s₀.run events).unjudged 0 = 0 := by
      refine List.countP_eq_zero.mpr fun id _ h => ?_
      rcases ht : (s₀.run events).task? id with _ | t
      · rw [ht] at h
        cases h
      · rw [ht] at h
        exact hnone id t ht (phase?_of_isUnjudged h)
    have herrors := errors_single hstart habort
    rw [errors, hc, hunjudged] at herrors
    exact herrors
  · show c.writeBack.flushedEntries + c.writeBack.flushFailures + c.writeBack.pendingCount ≤ _
    omega
  · have hheld : (s₀.run events).held = 0 := total_eq_zero fun id t ht => by
      rw [Task.held, (hnone id t ht).1, (hnone id t ht).2]
      rfl
    show c.writeBack.flushedEntries + c.writeBack.flushFailures + c.writeBack.pendingCount + _ = _
    omega
  · refine ⟨c.hot.entries.keys.toFinset, ?_, fun key => ?_⟩
    · rw [List.toFinset_card_of_nodup Std.ExtTreeMap.nodup_keys, Std.ExtTreeMap.length_keys]
      rfl
    · rw [List.mem_toFinset, Std.ExtTreeMap.mem_keys, ← hot_iff_run hstart hreads c hc key,
        ← HotTier.contains_eq_isSome]
      rfl

end Statistics

/-! ### A run with a bit of everything -/

/-- A first key is fetched and found hot; once its entry is stale its read fails and it is fetched
    anew, and a flush tries in vain to write it. A second key is refused by the provider, a third
    one fetched and written by another flush. A record of somebody else is promoted, the first
    key invalidated, and in the end one lookup waits for the provider while another one, of the
    second key, has been answered. -/
def eventful : List (Event String Unit (FaultyStore MemoryStore)) :=
  lookupRun (.ofSymbols ["a"]) 0 ⟨100, 0⟩ [none, none, none, some (.ok "u"), none] ++
    lookupRun (.ofSymbols ["a"]) 1 ⟨110, 0⟩ [none, none] ++
    [.disturb fun s => { s with plan := { s.plan with failReads := true } }] ++
    lookupRun (.ofSymbols ["a"]) 2 ⟨170, 0⟩ [none, none, none, some (.ok "v"), none] ++
    [.disturb fun s =>
      { s with plan := { s.plan with failReads := false, failPrefix := "n:A" } }] ++
    .flush 0 ⟨171, 0⟩ :: List.replicate 5 (.step ⟨171, 0⟩ none 3) ++
    lookupRun (.ofSymbols ["b"]) 4 ⟨172, 0⟩ [none, none, none, some (.error ()), none] ++
    lookupRun (.ofSymbols ["c"]) 5 ⟨173, 0⟩ [none, none, none, some (.ok "w"), none] ++
    .flush 0 ⟨174, 0⟩ :: List.replicate 5 (.step ⟨174, 0⟩ none 6) ++
    [.disturb fun s =>
      (DurableStore.put s ⟨175, 0⟩ "n:D"
        ((Entry.encode? ⟨"n:D", "x", ⟨175, 0⟩⟩).getD []) 86400).2] ++
    lookupRun (.ofSymbols ["d"]) 7 ⟨176, 0⟩ [none, none, none, none] ++
    [.invalidate 0 (.ofSymbols ["a"])] ++
    lookupRun (.ofSymbols ["e"]) 8 ⟨177, 0⟩ [none, none, none] ++
    lookupRun (.ofSymbols ["b"]) 9 ⟨178, 0⟩ [none, none, none, some (.ok "y"), none]

/-- The cache of `eventful`. -/
def busy : System String Unit (FaultyStore MemoryStore) :=
  single (.ofStore .empty) "n" ⟨60, 600, 86400, false⟩ ⟨100, 0⟩

theorem accounts_run_eventful : ∃ c, (busy.run eventful).cache? 0 = some c ∧
    c.stats.hotHits = 1 ∧ c.stats.durableHits = 1 ∧ c.stats.misses = 6 ∧
    c.stats.durableErrors = 1 ∧ c.stats.flushes = 2 ∧
    c.stats.flushedEntries + c.stats.flushFailures + c.stats.pendingWrites = 3 ∧
    ∃ keys : Finset String, keys.card = c.stats.hotEntries ∧
      ∀ key, key ∈ keys ↔ busy.KeptHot "n" eventful key := by
  have hsound : ∀ x ∈ busy.history eventful, x ≠ .broke x.id := by decide +kernel
  obtain ⟨c, hc, haccounts⟩ := accounts_run (rfl : busy = single _ _ _ _)
    (show ∀ id, .abort id ∉ eventful by simp [eventful, lookupRun])
    fun id hmem => hsound _ hmem rfl
  have hnone : ∀ id t, (busy.run eventful).task? id = some t → t.phase? ≠ some .judging :=
    fun id t ht => of_decide_eq_true
      (task_of_all (p := fun t => t.phase? ≠ some .judging) (by decide +kernel) id t ht)
  have hpass : ∀ id t, (busy.run eventful).task? id = some t → t.pass? = none ∧ t.unwritten = [] :=
    fun id t ht => of_decide_eq_true
      (task_of_all (p := fun t => t.pass? = none ∧ t.unwritten = []) (by decide +kernel) id t ht)
  have hlookups : _ = 8 := haccounts.lookups.trans (by decide +kernel)
  have hmisses : _ = 6 := haccounts.misses.trans (by decide +kernel)
  have hreads : _ = 7 := (haccounts.reads hnone).trans (by decide +kernel)
  have hsuperseded :
      (Journal.writesAt .superseded (journal (busy.history eventful))).length = 1 := by
    decide +kernel
  have hwrites : _ = 4 := (haccounts.writes hpass).trans (by decide +kernel)
  exact ⟨c, hc, by omega, by omega, hmisses, (haccounts.errors hnone).trans (by decide +kernel),
    haccounts.flushes.trans (by decide +kernel), by omega, haccounts.hot (by decide +kernel)⟩

end System

end MarketCache
