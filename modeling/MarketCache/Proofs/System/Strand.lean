import MarketCache.Proofs.Cache.OwnKey
import MarketCache.Proofs.System.Turn

/-!
# The strand of a lookup

As long as no pass is due, a lookup has to do with its cache under its own key only: what it goes
by is the hot entry there, and what it changes is that entry, the write that waits there, and
the counters. These things and the lookup itself make up its strand, and each step takes the
strand to the next, whatever else is in the cache.

Main definitions:
* `Strand`, `Strand.next`: a lookup with its part of the cache, and one step of it.
* `Task.OnCourse`: the stages of a lookup that takes no pass.
* `Strand.Change`: how the cache changes with the strand.

Results:
* `step_strand`: a step of a lookup takes its strand to the next.
* `answered_of_five_le`: five steps bring a lookup to its answer.
-/

namespace MarketCache

variable {α ε σ : Type}

namespace CacheStats

/-- Two sets of counters taken together. -/
def plus (a b : CacheStats) : CacheStats where
  hotHits := a.hotHits + b.hotHits
  durableHits := a.durableHits + b.durableHits
  misses := a.misses + b.misses
  durableErrors := a.durableErrors + b.durableErrors
  flushes := a.flushes + b.flushes
  flushedEntries := a.flushedEntries + b.flushedEntries
  flushFailures := a.flushFailures + b.flushFailures
  hotEntries := a.hotEntries + b.hotEntries
  pendingWrites := a.pendingWrites + b.pendingWrites

theorem plus_assoc (a b c : CacheStats) : (a.plus b).plus c = a.plus (b.plus c) := by
  simp only [plus, Nat.add_assoc]

theorem plus_comm (a b : CacheStats) : a.plus b = b.plus a := by
  simp only [plus, Nat.add_comm]

end CacheStats

/-! ## Strands -/

/-- A lookup, what its cache has under its key, and what it has counted so far. -/
structure Strand (α ε : Type) where
  task : Task α ε
  hot : Option (Entry α)
  waits : Option (PendingWrite α)
  counted : CacheStats

namespace Strand

/-- The strand of a lookup of a key that has just been started. -/
def start (c : TieredCache α) (cache : Nat) (key : String) (now : Instant) : Strand α ε :=
  ⟨.lookup cache key now .asking, c.hot.get? key, c.writeBack.pendingFor? key, .zero⟩

/-- What a lookup makes of what it has read. -/
def judge (p : FreshnessPolicy) (now : Instant) (x : Strand α ε) :
    DurableRead α → Option (Entry α) × Strand α ε
  | .found e =>
    if p.isFresh e now then
      (some e, { x with hot := some e, counted := x.counted.recordDurableHit })
    else (none, { x with counted := x.counted.recordMiss })
  | .absent => (none, { x with counted := x.counted.recordMiss })
  | .failed => (none, { x with counted := x.counted.recordDurableError.recordMiss })

/-- One step of a lookup that reads `r` and to which the provider answers with `outcome`, no pass
    being due. -/
def next (p : FreshnessPolicy) (r : DurableRead α) (outcome : Except ε α) (x : Strand α ε) :
    Strand α ε :=
  match x.task with
  | .lookup cache key now stage =>
    let goOn (x : Strand α ε) (stage : LookupStage α ε) :=
      { x with task := .lookup cache key now stage }
    match stage with
    | .asking =>
      match x.hot.filter (p.isFresh · now) with
      | some e => goOn { x with counted := x.counted.recordHotHit } (.closing (.ok (.cached e)))
      | none => goOn x .reading
    | .reading => goOn x (.judging r)
    | .judging r =>
      match x.judge p now r with
      | (some e, x) => goOn x (.closing (.ok (.cached e)))
      | (none, x) => goOn x .fetching
    | .fetching =>
      match outcome with
      | .ok payload =>
        let e : Entry α := ⟨key, payload, now⟩
        goOn { x with hot := some e, waits := some ⟨e, now⟩ } (.closing (.ok (.fetched e)))
      | .error err => goOn x (.closing (.error err))
    | .closing answer => { x with task := .answered answer }
    | _ => x
  | _ => x

/-- A strand after some steps. -/
def after (p : FreshnessPolicy) (r : DurableRead α) (outcome : Except ε α) (x : Strand α ε) :
    Nat → Strand α ε
  | 0 => x
  | n + 1 => (x.after p r outcome n).next p r outcome

end Strand

/-- The stages of a lookup that reads `r` and for which no pass is due. -/
inductive Task.OnCourse (cache : Nat) (key : String) (now : Instant) (r : DurableRead α) :
    Task α ε → Prop where
  | asking : OnCourse cache key now r (.lookup cache key now .asking)
  | reading : OnCourse cache key now r (.lookup cache key now .reading)
  | judging : OnCourse cache key now r (.lookup cache key now (.judging r))
  | fetching : OnCourse cache key now r (.lookup cache key now .fetching)
  | closing (answer : Except ε (Lookup α)) :
      OnCourse cache key now r (.lookup cache key now (.closing answer))
  | answered (answer : Except ε (Lookup α)) : OnCourse cache key now r (.answered answer)

namespace Strand

section Course

variable {p : FreshnessPolicy} {r : DurableRead α} {outcome : Except ε α} {x : Strand α ε}
  {cache : Nat} {key : String} {now : Instant}

/-- A lookup stays on its course. -/
theorem onCourse_next (h : x.task.OnCourse cache key now r) :
    (x.next p r outcome).task.OnCourse cache key now r := by
  generalize ht : x.task = t at h
  cases h with
  | asking =>
    rcases hfresh : x.hot.filter (p.isFresh · now) with _ | e
    · simp only [next, ht, hfresh]
      exact .reading
    · simp only [next, ht, hfresh]
      exact .closing _
  | reading =>
    simp only [next, ht]
    exact .judging
  | judging =>
    rcases hjudge : x.judge p now r with ⟨_ | e, x'⟩
    · simp only [next, ht, hjudge]
      exact .fetching
    · simp only [next, ht, hjudge]
      exact .closing _
  | fetching =>
    cases outcome with
    | ok payload =>
      simp only [next, ht]
      exact .closing _
    | error err =>
      simp only [next, ht]
      exact .closing _
  | closing answer =>
    simp only [next, ht]
    exact .answered answer
  | answered answer =>
    simp only [next, ht]
    exact .answered answer

theorem onCourse_after (h : x.task.OnCourse cache key now r) (n : Nat) :
    (x.after p r outcome n).task.OnCourse cache key now r := by
  induction n with
  | zero => exact h
  | succ n ih => exact onCourse_next ih

/-! ### The end of a strand -/

/-- Nothing comes after the answer. -/
theorem after_add_of_answered {answer : Except ε (Lookup α)} {n : Nat}
    (h : (x.after p r outcome n).task = .answered answer) (m : Nat) :
    x.after p r outcome (n + m) = x.after p r outcome n := by
  induction m with
  | zero => rfl
  | succ m ih =>
    rw [← Nat.add_assoc, after, ih]
    simp only [next, h]

/-- How many steps a lookup is from its answer at most. -/
def left : Task α ε → Nat
  | .lookup _ _ _ .asking => 5
  | .lookup _ _ _ .reading => 4
  | .lookup _ _ _ (.judging _) => 3
  | .lookup _ _ _ .fetching => 2
  | .lookup _ _ _ (.closing _) => 1
  | _ => 0

/-- Each step brings a lookup nearer to its answer. -/
theorem left_next (h : x.task.OnCourse cache key now r) :
    left (x.next p r outcome).task ≤ left x.task - 1 := by
  generalize ht : x.task = t at h ⊢
  cases h with
  | asking =>
    rcases hfresh : x.hot.filter (p.isFresh · now) with _ | e
    · simp [next, ht, hfresh, left]
    · simp [next, ht, hfresh, left]
  | reading => simp [next, ht, left]
  | judging =>
    rcases hjudge : x.judge p now r with ⟨_ | e, x'⟩
    · simp [next, ht, hjudge, left]
    · simp [next, ht, hjudge, left]
  | fetching => cases outcome <;> simp [next, ht, left]
  | closing answer => simp [next, ht, left]
  | answered answer => simp [next, ht, left]

/-- Five steps bring a lookup to its answer. -/
theorem answered_of_five_le (h : x.task.OnCourse cache key now r) {n : Nat} (hn : 5 ≤ n) :
    ∃ answer, (x.after p r outcome n).task = .answered answer := by
  have hleft : ∀ m, left (x.after p r outcome m).task ≤ 5 - m := by
    intro m
    induction m with
    | zero =>
      show left x.task ≤ 5
      generalize x.task = t at h ⊢
      cases h with
      | _ => simp only [left]; omega
    | succ m ih =>
      have hnext :
          left (x.after p r outcome (m + 1)).task ≤ left (x.after p r outcome m).task - 1 :=
        left_next (onCourse_after h m)
      omega
  have hzero : left (x.after p r outcome n).task = 0 := by
    have hn' := hleft n
    omega
  have hcourse : (x.after p r outcome n).task.OnCourse cache key now r := onCourse_after h n
  generalize (x.after p r outcome n).task = t at hzero hcourse ⊢
  cases hcourse with
  | answered answer => exact ⟨answer, rfl⟩
  | _ => simp [left] at hzero

end Course

/-! ## The cache beside a strand -/

/-- Whether a cache changes as the strand of a lookup of a key does, and in nothing else. -/
structure Change (key : String) (x y : Strand α ε) (c c' : TieredCache α) : Prop where
  frame : c' = { c with
    hot := c'.hot
    writeBack := { c.writeBack with pending := c'.writeBack.pending }
    counters := c'.counters }
  hot : c'.hot.get? key = y.hot
  hot_of_ne : ∀ k, k ≠ key → c'.hot.get? k = c.hot.get? k
  waits : c'.writeBack.pendingFor? key = y.waits
  waits_of_ne : ∀ k, k ≠ key → c'.writeBack.pendingFor? k = c.writeBack.pendingFor? k
  counted : ∃ more, y.counted = x.counted.plus more ∧ c'.counters = c.counters.plus more

/-- At which stage the lookup is bears on nothing of the cache. -/
theorem Change.withTask {key : String} {x y : Strand α ε} {c c' : TieredCache α}
    (h : Change key x y c c') (task : Task α ε) : Change key x { y with task } c c' :=
  ⟨h.frame, h.hot, h.hot_of_ne, h.waits, h.waits_of_ne, h.counted⟩

section Changes

variable {c : TieredCache α} {x : Strand α ε} {key : String} {now : Instant}

/-- Only the counters change. -/
theorem change_counters (hhot : c.hot.get? key = x.hot)
    (hwaits : c.writeBack.pendingFor? key = x.waits) (task : Task α ε) (more : CacheStats) :
    Change key x { x with task, counted := x.counted.plus more } c
      { c with counters := c.counters.plus more } where
  frame := rfl
  hot := hhot
  hot_of_ne _ _ := rfl
  waits := hwaits
  waits_of_ne _ _ := rfl
  counted := ⟨more, rfl, rfl⟩

/-- Nothing of the cache changes. -/
theorem change_task (hhot : c.hot.get? key = x.hot)
    (hwaits : c.writeBack.pendingFor? key = x.waits) (task : Task α ε) :
    Change key x { x with task } c c := change_counters hhot hwaits task .zero

/-- An entry of the key becomes hot. -/
theorem change_hot {e : Entry α} (hkey : e.key = key)
    (hwaits : c.writeBack.pendingFor? key = x.waits) (task : Task α ε) (more : CacheStats) :
    Change key x { x with task, hot := some e, counted := x.counted.plus more } c
      { c with hot := c.hot.set e, counters := c.counters.plus more } where
  frame := rfl
  hot := by
    show (c.hot.set e).get? key = some e
    rw [HotTier.get?_set, if_pos hkey]
  hot_of_ne k hk := c.hot.get?_set_of_ne (hkey ▸ hk)
  waits := hwaits
  waits_of_ne _ _ := rfl
  counted := ⟨more, rfl, rfl⟩

/-- An entry of the key becomes hot and waits to be written. -/
theorem change_fetched (payload : α) (task : Task α ε) :
    Change key x
      { x with task, hot := some ⟨key, payload, now⟩, waits := some ⟨⟨key, payload, now⟩, now⟩ } c
      (c.storeFetched ⟨key, payload, now⟩) where
  frame := rfl
  hot := by
    show (c.hot.set ⟨key, payload, now⟩).get? key = _
    rw [HotTier.get?_set, if_pos rfl]
  hot_of_ne k hk := c.hot.get?_set_of_ne hk
  waits := by
    show (c.writeBack.record ⟨key, payload, now⟩ now).pendingFor? key = _
    rw [WriteBack.pendingFor?_record, if_pos rfl]
  waits_of_ne k hk := by
    show (c.writeBack.record ⟨key, payload, now⟩ now).pendingFor? k = _
    rw [WriteBack.pendingFor?_record, if_neg (Ne.symm hk)]
  counted := ⟨.zero, rfl, rfl⟩

/-- A lookup judges what it has read as its strand does. -/
theorem change_judge (hhot : c.hot.get? key = x.hot)
    (hwaits : c.writeBack.pendingFor? key = x.waits) {r : DurableRead α}
    (hown : ∀ e, r = .found e → e.key = key) (now : Instant) :
    (c.checkDurable r now).1 = (x.judge c.policy now r).1 ∧
      Change key x (x.judge c.policy now r).2 c (c.checkDurable r now).2 := by
  cases r with
  | absent => exact ⟨rfl, change_counters hhot hwaits x.task (CacheStats.zero.recordMiss)⟩
  | failed =>
    exact ⟨rfl, change_counters hhot hwaits x.task (CacheStats.zero.recordDurableError.recordMiss)⟩
  | found e =>
    by_cases hfresh : c.policy.isFresh e now = true
    · rw [TieredCache.checkDurable, judge, if_pos hfresh, if_pos hfresh]
      exact ⟨rfl, change_hot (hown e rfl) hwaits x.task (CacheStats.zero.recordDurableHit)⟩
    · rw [TieredCache.checkDurable, judge, if_neg hfresh, if_neg hfresh]
      exact ⟨rfl, change_counters hhot hwaits x.task (CacheStats.zero.recordMiss)⟩

end Changes

end Strand

/-! ## Steps -/

namespace System

theorem setCache_self {s : System α ε σ} {cache : Nat} {c : TieredCache α}
    (hc : s.cache? cache = some c) : s.setCache cache c = s := by
  unfold setCache
  have hslots : (s.slots.modify cache fun slot => { slot with cache := c }) = s.slots := by
    apply List.ext_getElem?
    intro i
    rw [List.getElem?_modify]
    by_cases hi : cache = i
    · subst hi
      unfold cache? at hc
      obtain ⟨slot, hslot, hcache⟩ := Option.map_eq_some_iff.mp hc
      rw [hslot, ← hcache]
      simp
    · simp [hi]
  rw [hslots]

variable [Payload α] [DurableStore σ]

/-- A step of a lookup for which no pass is due takes its strand to the next, and changes the cache
    with it. -/
theorem step_strand {s : System α ε σ} {id cache : Nat} {c : TieredCache α} {x : Strand α ε}
    {key : String} {now : Instant} {r : DurableRead α} (clock : Instant) (outcome : Except ε α)
    (ht : s.task? id = some x.task) (hcourse : x.task.OnCourse cache key now r)
    (hc : s.cache? cache = some c) (hhot : c.hot.get? key = x.hot)
    (hwaits : c.writeBack.pendingFor? key = x.waits) (hdue : c.writeBack.isDue now = false)
    (hread : .ofBytes (DurableStore.get s.store clock key).1 = r)
    (hown : ∀ e, r = .found e → e.key = key) :
    (s.step clock (some outcome) id = s ∧ x.next c.policy r outcome = x) ∨
    ∃ c' store',
      s.step clock (some outcome) id = setTask { s.setCache cache c' with store := store' } id
        (x.next c.policy r outcome).task ∧
      Strand.Change key x (x.next c.policy r outcome) c c' ∧
      (store' = s.store ∨ store' = (DurableStore.get s.store clock key).2) := by
  generalize htask : x.task = t at ht hcourse
  have hstep : ∀ stage, t = .lookup cache key now stage → s.step clock (some outcome) id =
      s.stepLookup id cache c key now clock (some outcome) stage := by
    intro stage hstage
    rw [hstage] at ht
    simp only [step, ht, hc]
  cases hcourse with
  | asking =>
    right
    rw [hstep _ rfl]
    rcases c.checkHot_eq key now with ⟨e, he, hfresh, hcheck⟩ | ⟨hcold, hcheck⟩
    · have hserved : x.hot.filter (c.policy.isFresh · now) = some e := by
        rw [← hhot, he, Option.filter_some, if_pos hfresh]
      simp only [stepLookup, hcheck, Strand.next, htask, hserved]
      exact ⟨_, s.store, rfl, Strand.change_counters hhot hwaits _ CacheStats.zero.recordHotHit,
        Or.inl rfl⟩
    · have hnone : x.hot.filter (c.policy.isFresh · now) = none := by
        rw [Option.filter_eq_none_iff]
        rw [hhot] at hcold
        simpa using (Option.any_eq_false _ _).mp hcold
      simp only [stepLookup, hcheck, Strand.next, htask, hnone]
      exact ⟨c, s.store, rfl, Strand.change_task hhot hwaits _, Or.inl rfl⟩
  | reading =>
    right
    rw [hstep _ rfl]
    rcases hget : DurableStore.get s.store clock key with ⟨bytes, store'⟩
    rw [hget] at hread
    simp only [stepLookup, hget, hread, Strand.next, htask]
    refine ⟨c, store', ?_, Strand.change_task hhot hwaits _, Or.inr rfl⟩
    rw [setCache_self hc]
  | judging =>
    right
    rw [hstep _ rfl]
    obtain ⟨hanswer, hchange⟩ := x.change_judge hhot hwaits hown now
    rcases hcheck : c.checkDurable r now with ⟨answer, c'⟩
    rw [hcheck] at hanswer hchange
    rcases hjudge : x.judge c.policy now r with ⟨answer', x'⟩
    rw [hjudge] at hanswer hchange
    cases hanswer
    rcases answer with _ | e
    · simp only [stepLookup, hcheck, Strand.next, htask, hjudge]
      exact ⟨c', s.store, rfl, hchange.withTask _, Or.inl rfl⟩
    · simp only [stepLookup, hcheck, Strand.next, htask, hjudge]
      exact ⟨c', s.store, rfl, hchange.withTask _, Or.inl rfl⟩
  | fetching =>
    right
    rw [hstep _ rfl]
    cases outcome with
    | ok payload =>
      simp only [stepLookup, Strand.next, htask]
      exact ⟨_, s.store, rfl, Strand.change_fetched payload _, Or.inl rfl⟩
    | error err =>
      simp only [stepLookup, Strand.next, htask]
      refine ⟨c, s.store, ?_, Strand.change_task hhot hwaits _, Or.inl rfl⟩
      rw [setCache_self hc]
  | closing answer =>
    right
    rw [hstep _ rfl]
    simp only [stepLookup, takeDue?_eq, hdue, Bool.false_eq_true, if_false, Strand.next, htask]
    refine ⟨c, s.store, ?_, Strand.change_task hhot hwaits _, Or.inl rfl⟩
    rw [setCache_self hc]
  | answered answer =>
    left
    refine ⟨?_, ?_⟩
    · simp only [step, ht]
    · simp only [Strand.next, htask]

end System

end MarketCache
