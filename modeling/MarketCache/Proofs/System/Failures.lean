import MarketCache.Proofs.System.Numbers
import MarketCache.Proofs.System.Sequential
import MarketCache.Proofs.System.Totals

/-!
# Reads that fail and lookups that fail

A read fails if the store refuses it or has bytes that are no entry. The cache counts such reads
as its lookups judge what they have read. A lookup fails for another reason only: the provider
has refused it.

Main definitions:
* `System.unjudged`: the failed reads that are not counted yet.
* `System.Refused`: the provider has refused a lookup in a run.

Results:
* `errors_run`: the counter is the number of failed reads that were judged.
* `refused_of_answered`: an error that a lookup answers is the provider's.
-/

namespace MarketCache

variable {α ε σ : Type}

/-- Whether a task is a lookup of a cache that has still to judge a failed read. -/
def Task.isUnjudged (cache : Nat) : Task α ε → Bool
  | .lookup k _ _ (.judging .failed) => k = cache
  | _ => false

/-- The error that a lookup has come to, or has answered. -/
def Task.error? : Task α ε → Option ε
  | .lookup _ _ _ (.closing (.error err)) => some err
  | .lookup _ _ _ (.detaching (.error err) _) => some err
  | .lookup _ _ _ (.writing (.error err) _) => some err
  | .answered (.error err) => some err
  | _ => none

namespace System

/-! ## The counter of failed reads -/

/-- The failed reads of a cache that its lookups have still to judge. -/
def unjudged (s : System α ε σ) (cache : Nat) : Nat :=
  (List.range s.next).countP fun id => (s.task? id).any (·.isUnjudged cache)

/-- The failed reads of a cache, those that are counted and those that are not yet. -/
def errors (s : System α ε σ) (cache : Nat) : Nat :=
  ((s.cache? cache).map (·.counters.durableErrors)).getD 0 + s.unjudged cache

section Counter

variable {s s' : System α ε σ} {id k : Nat} {t : Task α ε}

/-- The reads that are not judged, as a sum over the tasks. -/
theorem unjudged_eq_total (s : System α ε σ) (k : Nat) :
    s.unjudged k = s.total fun t => (t.isUnjudged k).toNat := by
  rw [unjudged, countP_range]
  refine rangeSum_congr fun i _ => ?_
  rcases s.task? i with _ | t <;> rfl

theorem unjudged_setTask (hid : id < s.next) (ht : s.task? id = some t) (t' : Task α ε)
    (k : Nat) : (s.setTask id t').unjudged k + (t.isUnjudged k).toNat =
      s.unjudged k + (t'.isUnjudged k).toNat := by
  rw [unjudged_eq_total, unjudged_eq_total]
  exact total_setTask s rfl rfl hid ht t' fun t => (t.isUnjudged k).toNat

theorem unjudged_add (t : Task α ε) (k : Nat) (ht : t.isUnjudged k = false) :
    (s.add t).2.unjudged k = s.unjudged k := by
  rw [unjudged_eq_total, unjudged_eq_total, total_add, ht]
  rfl

/-- A task goes on from one stage to another, neither of them with a failed read to judge. -/
theorem errors_setTask (hid : id < s.next) (ht : s.task? id = some t) {t' : Task α ε} (k : Nat)
    (hbefore : t.isUnjudged k = false) (hafter : t'.isUnjudged k = false) :
    (s.setTask id t').errors k = s.errors k := by
  have hcount := unjudged_setTask hid ht t' k
  rw [hbefore, hafter] at hcount
  unfold errors
  rw [cache?_setTask]
  simp only [Bool.toNat_false] at hcount
  omega

/-- A cache changes, but not its counter of failed reads. -/
theorem errors_setCache {cache : Nat} {c c' : TieredCache α} (hc : s.cache? cache = some c)
    (hsame : c'.counters.durableErrors = c.counters.durableErrors) (k : Nat) :
    (s.setCache cache c').errors k = s.errors k := by
  unfold errors
  rw [show (s.setCache cache c').unjudged k = s.unjudged k from rfl, cache?_setCache]
  split
  · next heq =>
    rw [← heq, hc]
    simp only [Option.map_some, Option.getD_some, hsame]
  · rfl

theorem errors_congr (hcaches : ∀ k, s'.cache? k = s.cache? k)
    (htasks : ∀ i, s'.task? i = s.task? i) (hnext : s'.next = s.next) (k : Nat) :
    s'.errors k = s.errors k := by
  unfold errors unjudged
  rw [hcaches, hnext]
  simp only [htasks]

theorem errors_add (t : Task α ε) (k : Nat) (ht : t.isUnjudged k = false) :
    (s.add t).2.errors k = s.errors k := by
  unfold errors
  rw [unjudged_add t k ht]
  rfl

theorem isUnjudged_withPass {p : Pass α} (hp : t.pass? = some p) (p' : Pass α) (k : Nat) :
    (t.withPass p').isUnjudged k = false := by
  rcases writer_cases hp with ⟨_, _, _, _, rfl⟩ | ⟨_, _, rfl⟩ | ⟨_, rfl⟩ | ⟨_, _, _, rfl⟩ <;> rfl

theorem isUnjudged_afterPass {p : Pass α} (hp : t.pass? = some p) (r : FlushReport) (k : Nat) :
    (t.afterPass r).isUnjudged k = false := by
  rcases writer_cases hp with ⟨_, _, _, _, rfl⟩ | ⟨_, _, rfl⟩ | ⟨_, rfl⟩ | ⟨_, _, _, rfl⟩ <;> rfl

theorem isUnjudged_withFlush {now : Instant} {stage : FlushStage α}
    (hf : t.flushing? = some (now, stage)) (stage' : FlushStage α) (k : Nat) :
    (t.withFlush stage').isUnjudged k = false := by
  rcases flusher_cases hf with ⟨_, rfl⟩ | ⟨_, _, rfl⟩ <;> rfl

variable [Payload α] [DurableStore σ] {clock : Instant} {outcome : Option (Except ε α)}
  {log more : List (Happening α ε)}

/-- No step counts a failed read but that of a lookup that reads the store or judges what it
    read. -/
theorem Turn.errors_eq (hturn : Turn s clock id t more s') (hid : id < s.next)
    (ht : s.task? id = some t)
    (hreading : ∀ cache key now, t ≠ .lookup cache key now .reading)
    (hjudging : ∀ cache key now r, t ≠ .lookup cache key now (.judging r)) (k : Nat) :
    s'.errors k = s.errors k := by
  have hnone : t.isUnjudged k = false := by
    cases t with
    | lookup cache key now stage =>
      cases stage with
      | judging r => exact absurd rfl (hjudging cache key now r)
      | _ => rfl
    | _ => rfl
  have hcache : ∀ {cache c} {c' : TieredCache α} {t'}, s.cache? cache = some c →
      c'.counters.durableErrors = c.counters.durableErrors → t'.isUnjudged k = false →
      ((s.setCache cache c').setTask id t').errors k = s.errors k := fun hc hsame hafter =>
    (errors_setTask (s := s.setCache _ _) hid ht k hnone hafter).trans (errors_setCache hc hsame k)
  cases hturn with
  | idle => rfl
  | hot hc he hfresh => exact hcache hc rfl rfl
  | cold hc => exact hcache hc rfl rfl
  | read store hget => exact absurd rfl (hreading _ _ _)
  | durable hc hfresh => exact absurd rfl (hjudging _ _ _ _)
  | call counters hc => exact absurd rfl (hjudging _ _ _ _)
  | fetched payload hc => exact hcache hc rfl rfl
  | refused err => exact errors_setTask hid ht k hnone rfl
  | rest => exact errors_setTask hid ht k hnone rfl
  | hand hc => exact hcache hc rfl rfl
  | begin hc => exact hcache hc rfl rfl
  | @detach key now answer cache batch =>
    have hadd : (s.add (.pass cache (.ofBatch batch))).2.task? id =
        some (.lookup cache key now (.detaching answer batch)) := by
      show (s.setTask s.next _).task? id = _
      rw [task?_setTask, if_neg (by omega), ht]
    refine (errors_setTask (s := { (s.add (.pass cache (.ofBatch batch))).2 with
      slots := s.slots.modify cache fun slot =>
        { slot with inFlight := slot.inFlight ++ [s.next] } })
      (Nat.lt_succ_of_lt hid) hadd k hnone rfl).trans ?_
    refine (errors_congr (fun k => cache?_modify_inFlight _ cache k (· ++ [s.next]))
      (fun _ => rfl) rfl k).trans ?_
    exact errors_add _ k rfl
  | write store hp hcache hc hw ha =>
    exact errors_setTask (s := { s with store }) hid ht k hnone (isUnjudged_withPass hp _ k)
  | broke store hp hcache hc hw => exact errors_setTask (s := { s with store }) hid ht k hnone rfl
  | wrote hp howner hc => exact hcache hc rfl (isUnjudged_afterPass hp _ k)
  | wake => exact errors_setTask hid ht k hnone rfl
  | @takeOver _ now cache slot hf howner hslot =>
    refine (errors_setTask (s := s.setSlot cache { slot with inFlight := [] }) hid ht k hnone
      (isUnjudged_withFlush hf _ k)).trans ?_
    exact errors_congr (fun k => cache?_setSlot s cache k hslot []) (fun _ => rfl) rfl k
  | wait hf => exact errors_setTask hid ht k hnone (isUnjudged_withFlush hf _ k)
  | join hf hover => exact errors_setTask hid ht k hnone (isUnjudged_withFlush hf _ k)
  | take hf howner hc => exact hcache hc rfl (isUnjudged_withFlush hf _ k)

/-- A lookup that has read the store has a failed read to judge, if the read failed. -/
theorem isUnjudged_ofBytes (cache : Nat) (key : String) (now : Instant)
    (r : Except StoreError (Option Bytes)) (k : Nat) :
    (Task.lookup cache key now (.judging (.ofBytes r)) : Task α ε).isUnjudged k =
      (decide (cache = k) && (⟨cache, key, r⟩ : StoreRead).isFailed α) := by
  unfold Task.isUnjudged StoreRead.isFailed
  rcases (DurableRead.ofBytes r : DurableRead α) with _ | e | _ <;> simp

theorem reading_errors {cache : Nat} {key : String} {now : Instant} (hid : id < s.next)
    (ht : s.task? id = some (.lookup cache key now .reading)) (k : Nat) :
    (s.step clock outcome id).errors k = s.errors k +
      (s.read? (.step clock outcome id)).toList.countP fun r => r.cache = k && r.isFailed α := by
  rcases hc : s.cache? cache with _ | c
  · simp only [step, read?, ht, hc, Option.isSome_none, Bool.false_eq_true, if_false,
      Option.toList_none, List.countP_nil, Nat.add_zero]
  · have hstep : s.step clock outcome id =
        setTask { s with store := (DurableStore.get s.store clock key).2 } id
          (.lookup cache key now (.judging (.ofBytes (DurableStore.get s.store clock key).1))) := by
      simp only [step, ht, hc, stepLookup]
    have hcount := unjudged_setTask
      (s := { s with store := (DurableStore.get s.store clock key).2 }) hid ht
      (.lookup cache key now (.judging (.ofBytes (DurableStore.get s.store clock key).1))) k
    have hstore : ({ s with store := (DurableStore.get s.store clock key).2 } :
        System α ε σ).unjudged k = s.unjudged k := rfl
    rw [isUnjudged_ofBytes, ← hstep, hstore] at hcount
    have hcaches : (s.step clock outcome id).cache? k = s.cache? k := by rw [hstep]; rfl
    rw [read?_of_task? ht hc, Option.toList_some, List.countP_singleton]
    unfold errors
    rw [hcaches]
    have hbefore : (Task.lookup cache key now .reading : Task α ε).isUnjudged k = false := rfl
    rw [hbefore, Bool.toNat_false, Nat.add_zero] at hcount
    rw [hcount]
    rcases (decide (cache = k) && StoreRead.isFailed α ⟨cache, key, _⟩) with _ | _
    · rfl
    · exact (Nat.add_assoc _ _ 1).symm

theorem judging_errors {cache : Nat} {key : String} {now : Instant} {r : DurableRead α}
    (hid : id < s.next) (ht : s.task? id = some (.lookup cache key now (.judging r))) (k : Nat) :
    (s.step clock outcome id).errors k = s.errors k +
      (s.read? (.step clock outcome id)).toList.countP fun r => r.cache = k && r.isFailed α := by
  have hread : s.read? (.step clock outcome id) = none := by simp only [read?, ht]
  rw [hread, Option.toList_none, List.countP_nil, Nat.add_zero]
  rcases hc : s.cache? cache with _ | c
  · simp only [step, ht, hc]
  have hstep : ∃ stage, s.step clock outcome id =
      (s.setCache cache (c.checkDurable r now).2).setTask id (.lookup cache key now stage) ∧
      (Task.lookup cache key now stage).isUnjudged k = false := by
    simp only [step, ht, hc, stepLookup]
    rcases c.checkDurable r now with ⟨_ | e, c'⟩
    · exact ⟨.fetching, rfl, rfl⟩
    · exact ⟨.closing (.ok (.cached e)), rfl, rfl⟩
  obtain ⟨stage, hstep, hafter⟩ := hstep
  rw [hstep]
  by_cases hfailed : r = .failed
  · -- the failed read is counted as it is judged
    subst hfailed
    have hcount := unjudged_setTask (s := s.setCache cache (c.checkDurable .failed now).2) hid ht
      (.lookup cache key now stage) k
    have hsame : (s.setCache cache (c.checkDurable .failed now).2).unjudged k = s.unjudged k := rfl
    rw [hafter, hsame] at hcount
    unfold errors
    rw [cache?_setTask, cache?_setCache]
    by_cases hk : cache = k
    · subst hk
      have hbefore : (Task.lookup cache key now (.judging .failed) : Task α ε).isUnjudged cache =
          true := decide_eq_true rfl
      have hcounted : (c.checkDurable .failed now).2.counters.durableErrors =
          c.counters.durableErrors + 1 := rfl
      rw [hbefore, Bool.toNat_true, Bool.toNat_false] at hcount
      rw [if_pos rfl, hc, Option.map_some, Option.map_some, Option.map_some, Option.getD_some,
        Option.getD_some, hcounted]
      omega
    · have hbefore : (Task.lookup cache key now (.judging .failed) : Task α ε).isUnjudged k =
          false := decide_eq_false hk
      rw [hbefore, Bool.toNat_false] at hcount
      rw [if_neg hk]
      omega
  · have hsame : (c.checkDurable r now).2.counters.durableErrors = c.counters.durableErrors := by
      rcases r with _ | e | _
      · rfl
      · rw [TieredCache.checkDurable]
        split <;> rfl
      · exact absurd rfl hfailed
    have hbefore : (Task.lookup cache key now (.judging r) : Task α ε).isUnjudged k = false := by
      rcases r with _ | e | _
      · rfl
      · rfl
      · exact absurd rfl hfailed
    exact (errors_setTask (s := s.setCache cache _) hid ht k hbefore hafter).trans
      (errors_setCache hc hsame k)

/-- A step counts the failed read that it makes. -/
theorem step_errors (hn : ∀ t, s.task? id = some t → id < s.next) (k : Nat) :
    (s.step clock outcome id).errors k = s.errors k +
      (s.read? (.step clock outcome id)).toList.countP fun r => r.cache = k && r.isFailed α := by
  rcases ht : s.task? id with _ | t
  · simp only [step, read?, ht, Option.toList_none, List.countP_nil, Nat.add_zero]
  have hid := hn t ht
  by_cases hreading : ∃ cache key now, t = .lookup cache key now .reading
  · obtain ⟨cache, key, now, rfl⟩ := hreading
    exact reading_errors hid ht k
  by_cases hjudging : ∃ cache key now r, t = .lookup cache key now (.judging r)
  · obtain ⟨cache, key, now, r, rfl⟩ := hjudging
    exact judging_errors hid ht k
  rw [read?_eq_none ht fun cache key now h => hreading ⟨cache, key, now, h⟩]
  exact (step_turn ht).errors_eq hid ht (fun cache key now h => hreading ⟨cache, key, now, h⟩)
    (fun cache key now r h => hjudging ⟨cache, key, now, r, h⟩) k

/-- An event that gives no task up counts the failed read that it makes. -/
theorem apply_errors {ev : Event α ε σ} (hn : ∀ id t, s.task? id = some t → id < s.next)
    (habort : ∀ id, ev ≠ .abort id) (k : Nat) :
    (s.apply ev).errors k = s.errors k +
      (s.read? ev).toList.countP fun r => r.cache = k && r.isFailed α := by
  cases ev with
  | lookup cache q now =>
    simp only [apply, addLookup, read?]
    rcases s.cache? cache with _ | c
    · rfl
    · exact errors_add _ k rfl
  | flush cache now => exact errors_add _ k rfl
  | maintain cache secs => exact errors_add _ k rfl
  | invalidate cache q =>
    simp only [apply, read?]
    rcases hc : s.cache? cache with _ | c
    · rfl
    · have hsame : (c.invalidate q).2.counters.durableErrors = c.counters.durableErrors := rfl
      exact errors_setCache hc hsame k
  | step clock outcome id => exact step_errors (hn id) k
  | abort id => exact absurd rfl (habort id)
  | disturb change => exact errors_congr (fun _ => rfl) (fun _ => rfl) rfl k

end Counter

/-! ## Errors that lookups answer -/

/-- Whether an error is what the provider answered to a lookup in a run. -/
def Refused [Payload α] [DurableStore σ] (s : System α ε σ) (events : List (Event α ε σ))
    (id : Nat) (err : ε) : Prop :=
  ∃ before clock after cache key now,
    events = before ++ .step clock (some (.error err)) id :: after ∧
      (s.run before).task? id = some (.lookup cache key now .fetching)

section Errors

variable [Payload α] [DurableStore σ] {s s' : System α ε σ} {clock : Instant}
  {outcome : Option (Except ε α)} {id : Nat} {t t' : Task α ε} {more : List (Happening α ε)}

theorem Refused.mono {events : List (Event α ε σ)} {err : ε} (h : Refused s events id err)
    (more : List (Event α ε σ)) : Refused s (events ++ more) id err := by
  obtain ⟨before, clock, after, cache, key, now, rfl, ht⟩ := h
  exact ⟨before, clock, after ++ more, cache, key, now, by rw [List.append_assoc]; rfl, ht⟩

/-- A lookup that does not wait for the provider comes to no error. -/
theorem Turn.error?_eq (hturn : Turn s clock id t more s') (ht : s.task? id = some t) {err : ε}
    (hid : s'.task? id = some t') (herr : t'.error? = some err)
    (hfetching : ∀ cache key now, t ≠ .lookup cache key now .fetching) : t.error? = some err := by
  have hset : ∀ {s₁ : System α ε σ} {t₁}, s' = s₁.setTask id t₁ → t₁.error? = some err :=
    fun heq => by
      rw [heq, task?_setTask, if_pos rfl] at hid
      cases hid
      exact herr
  cases hturn with
  | idle =>
    rw [ht] at hid
    cases hid
    exact herr
  | fetched payload hc => exact absurd rfl (hfetching _ _ _)
  | refused err => exact absurd rfl (hfetching _ _ _)
  | @rest cache key now answer => cases answer <;> exact (hset rfl :)
  | @hand cache key now answer c hc => cases answer <;> exact (hset rfl :)
  | @begin cache key now answer c hc => cases answer <;> exact (hset rfl :)
  | @detach key now answer cache batch => cases answer <;> exact (hset rfl :)
  | write store hp hcache hc hw ha =>
    have hsame := hset rfl
    rcases writer_cases hp with ⟨_, _, _, answer, rfl⟩ | ⟨_, _, rfl⟩ | ⟨_, rfl⟩ | ⟨_, _, _, rfl⟩
    · cases answer <;> exact hsame
    all_goals cases hsame
  | wrote hp hcache hc =>
    have hsame := hset rfl
    rcases writer_cases hp with ⟨_, _, _, answer, rfl⟩ | ⟨_, _, rfl⟩ | ⟨_, rfl⟩ | ⟨_, _, _, rfl⟩
    · cases answer <;> exact hsame
    all_goals cases hsame
  | takeOver hf hcache hslot =>
    have hsame := hset rfl
    rcases flusher_cases hf with ⟨_, rfl⟩ | ⟨_, _, rfl⟩ <;> cases hsame
  | wait hf =>
    have hsame := hset rfl
    rcases flusher_cases hf with ⟨_, rfl⟩ | ⟨_, _, rfl⟩ <;> cases hsame
  | join hf hover =>
    have hsame := hset rfl
    rcases flusher_cases hf with ⟨_, rfl⟩ | ⟨_, _, rfl⟩ <;> cases hsame
  | take hf hcache hc =>
    have hsame := hset rfl
    rcases flusher_cases hf with ⟨_, rfl⟩ | ⟨_, _, rfl⟩ <;> cases hsame
  | _ => cases hset rfl

/-- The error that a lookup has come to was there before the step, or is what the provider has
    just answered. -/
theorem step_error? {err : ε} (ht : s.task? id = some t)
    (ht' : (s.step clock outcome id).task? id = some t') (herr : t'.error? = some err) :
    t.error? = some err ∨
      outcome = some (.error err) ∧ ∃ cache key now, t = .lookup cache key now .fetching := by
  by_cases hfetching : ∃ cache key now, t = .lookup cache key now .fetching
  · obtain ⟨cache, key, now, rfl⟩ := hfetching
    rcases hc : s.cache? cache with _ | c
    · simp only [step, ht, hc, Option.some.injEq] at ht'
      rw [← ht'] at herr
      cases herr
    · rcases outcome with _ | err' | payload
      · simp only [step, stepLookup, ht, hc, Option.some.injEq] at ht'
        rw [← ht'] at herr
        cases herr
      · simp only [step, stepLookup, ht, hc, task?_setTask, if_true, Option.some.injEq] at ht'
        rw [← ht'] at herr
        cases herr
        exact Or.inr ⟨rfl, cache, key, now, rfl⟩
      · simp only [step, stepLookup, ht, hc, task?_setTask, if_true, Option.some.injEq] at ht'
        rw [← ht'] at herr
        cases herr
  have hturn : Turn s clock id t _ (s.step clock outcome id) := step_turn ht
  exact Or.inl (hturn.error?_eq ht ht' herr fun cache key now h => hfetching ⟨cache, key, now, h⟩)

/-- A lookup that answers is over, with the answer that it gives. -/
theorem Turn.task?_of_answered (hturn : Turn s clock id t more s') {k : Nat}
    {answer : Except ε (Lookup α)} (h : .answered k answer ∈ more) :
    k = id ∧ s'.task? id = some (.answered answer) := by
  cases hturn with
  | rest =>
    cases List.mem_singleton.mp h
    exact ⟨rfl, by rw [task?_setTask, if_pos rfl]⟩
  | detach cache batch =>
    simp only [List.mem_cons, List.not_mem_nil, or_false, reduceCtorEq, false_or,
      Happening.answered.injEq] at h
    obtain ⟨rfl, rfl⟩ := h
    exact ⟨rfl, by rw [task?_setTask, if_pos rfl]⟩
  | wrote hp hcache hc =>
    split at h
    · next heq =>
      cases List.mem_singleton.mp h
      exact ⟨rfl, by rw [task?_setTask, if_pos rfl, heq]⟩
    · cases h
  | _ => simp at h

theorem Move.task?_of_answered {ev : Event α ε σ} (hmove : Move s ev more s') {k : Nat}
    {answer : Except ε (Lookup α)} (h : .answered k answer ∈ more) :
    s'.task? k = some (.answered answer) := by
  cases hmove with
  | step ht hturn =>
    obtain ⟨rfl, hover⟩ := hturn.task?_of_answered h
    exact hover
  | _ => simp at h

/-- What an event leaves of the tasks, each with the error that it has come to. -/
theorem apply_error? {ev : Event α ε σ} {k : Nat} {err : ε}
    (hk : (s.apply ev).task? k = some t') (herr : t'.error? = some err) :
    (∃ t, s.task? k = some t ∧ t.error? = some err) ∨
      ∃ clock cache key now, ev = .step clock (some (.error err)) k ∧
        s.task? k = some (.lookup cache key now .fetching) := by
  have hadd : ∀ {t₁ : Task α ε}, (s.add t₁).2.task? k = some t' → t₁.error? = none →
      ∃ t, s.task? k = some t ∧ t.error? = some err := by
    intro t₁ hk hnone
    have hset : (s.setTask s.next t₁).task? k = some t' := hk
    rw [task?_setTask] at hset
    split at hset
    · cases hset
      rw [hnone] at herr
      cases herr
    · exact ⟨t', hset, herr⟩
  cases ev with
  | lookup cache q now =>
    simp only [apply, addLookup] at hk
    rcases hc : s.cache? cache with _ | c
    · rw [hc] at hk
      exact Or.inl ⟨t', hk, herr⟩
    · rw [hc] at hk
      exact Or.inl (hadd hk rfl)
  | flush cache now => exact Or.inl (hadd hk rfl)
  | maintain cache secs => exact Or.inl (hadd hk rfl)
  | invalidate cache q =>
    simp only [apply] at hk
    split at hk
    · exact Or.inl ⟨t', hk, herr⟩
    · exact Or.inl ⟨t', hk, herr⟩
  | step clock outcome id =>
    rcases ht : s.task? id with _ | t
    · have hsame : s.step clock outcome id = s := by simp only [step, ht]
      exact Or.inl ⟨t', hsame ▸ hk, herr⟩
    have hturn : Turn s clock id t _ (s.step clock outcome id) := step_turn ht
    rcases hturn.task?_cases hk with rfl | hold | ⟨_, _, rfl⟩
    · rcases step_error? ht hk herr with hbefore | ⟨rfl, cache, key, now, rfl⟩
      · exact Or.inl ⟨t, ht, hbefore⟩
      · exact Or.inr ⟨clock, cache, key, now, rfl, ht⟩
    · exact Or.inl ⟨t', hold, herr⟩
    · cases herr
  | abort id =>
    have hold : ∀ t', (s.abort id).task? k = some t' → s.task? k = some t' ∨ t' = .aborted := by
      refine abort_induction (P := fun s' => ∀ t', s'.task? k = some t' →
        s.task? k = some t' ∨ t' = .aborted) (fun t' h => Or.inl h) ?_ id
      intro s' id' t _ _ h t' ht'
      rw [task?_setTask] at ht'
      split at ht'
      · exact Or.inr (Option.some.inj ht').symm
      · exact h t' ht'
    rcases hold t' hk with hold | rfl
    · exact Or.inl ⟨t', hold, herr⟩
    · cases herr
  | disturb change => exact Or.inl ⟨t', hk, herr⟩

/-- An error that a lookup answers is the provider's. -/
theorem refused_of_answered {s : System α ε σ} (hs : ∀ k t, s.task? k = some t → t.error? = none)
    (events : List (Event α ε σ)) {id : Nat} {err : ε}
    (h : .answered id (.error err) ∈ s.history events) : Refused s events id err := by
  have hrun : (∀ k t err, (s.run events).task? k = some t → t.error? = some err →
        Refused s events k err) ∧
      ∀ k err, .answered k (.error err) ∈ s.history events → Refused s events k err := by
    refine prefix_induction (P := fun events => (∀ k t err, (s.run events).task? k = some t →
      t.error? = some err → Refused s events k err) ∧
      ∀ k err, .answered k (.error err) ∈ s.history events → Refused s events k err) ?_ ?_
    · refine ⟨fun k t err ht herr => ?_, fun k err h => absurd h List.not_mem_nil⟩
      rw [hs k t ht] at herr
      cases herr
    · rintro before ev after - ⟨htasks, hhistory⟩
      have hnext : ∀ k t err, (s.run (before ++ [ev])).task? k = some t → t.error? = some err →
          Refused s (before ++ [ev]) k err := by
        intro k t err ht herr
        rw [run_concat] at ht
        rcases apply_error? ht herr with ⟨t₀, ht₀, herr₀⟩ | ⟨clock, cache, key, now, rfl, ht₀⟩
        · exact (htasks k t₀ err ht₀ herr₀).mono [ev]
        · exact ⟨before, clock, [], cache, key, now, rfl, ht₀⟩
      refine ⟨hnext, fun k err h => ?_⟩
      rw [history_concat] at h
      rcases List.mem_append.mp h with hold | hnew
      · exact (hhistory k err hold).mono [ev]
      · refine hnext k (.answered (.error err)) err ?_ rfl
        rw [run_concat]
        exact (apply_move _ ev).task?_of_answered hnew
  exact hrun.2 id err h

end Errors

section Runs

variable [Payload α] [DurableStore σ]

/-- The counter of failed reads, with the ones that are not judged yet, is their number. -/
theorem errors_run (store : σ) (specs : List (String × CacheSettings × Instant))
    {events : List (Event α ε σ)} (habort : ∀ id, .abort id ∉ events) (k : Nat) :
    ((ofSpecs store specs).run events).errors k =
      ((ofSpecs store specs).reads events).countP fun r => r.cache = k && r.isFailed α := by
  have hrun : ((ofSpecs store specs).run events).Numbered ((ofSpecs store specs).history events) ∧
      ((ofSpecs store specs).run events).errors k =
        ((ofSpecs store specs).reads events).countP fun r => r.cache = k && r.isFailed α := by
    refine prefix_induction (P := fun events =>
      ((ofSpecs store specs).run events).Numbered ((ofSpecs store specs).history events) ∧
      ((ofSpecs store specs).run events).errors k =
        ((ofSpecs store specs).reads events).countP fun r => r.cache = k && r.isFailed α) ?_ ?_
    · refine ⟨numbered_ofSpecs store specs, ?_⟩
      show (ofSpecs store specs : System α ε σ).errors k = 0
      unfold errors
      rcases hc : (ofSpecs store specs : System α ε σ).cache? k with _ | c
      · rfl
      · obtain ⟨_, _, _, rfl⟩ := exists_of_cache?_ofSpecs hc
        rfl
    · rintro before ev after hsplit ⟨hnumbered, herrors⟩
      rw [run_concat, history_concat, reads_concat, List.countP_append, ← herrors]
      refine ⟨hnumbered.apply ev, apply_errors hnumbered.tasks (fun id heq => ?_) k⟩
      exact habort id (hsplit ▸ List.mem_append_right _ (heq ▸ List.mem_cons_self))
  exact hrun.2

end Runs

end System

end MarketCache
