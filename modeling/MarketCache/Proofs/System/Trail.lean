import MarketCache.Proofs.System.Access
import MarketCache.Proofs.WriteBack.Batch

/-!
# The trail of a recorded write

What a lookup fetched waits to be written until a task takes all that waits. The task may hand
it to a pass in the background, and attempts it in the end. A later write of its key, if there
is one before that, supersedes it. Where a write is on this trail is told from what happened
after it was recorded, and the invariant `Tracked` says that it is there indeed.

Main definitions:
* `Trail`, `trail`: where a write is, told from the history.
* `System.At`: a write is in the system where its trail says.
* `System.Tracked`: the invariant.

Results:
* `Move.tracked`: every event keeps the invariant.
-/

namespace MarketCache

variable {α ε σ : Type}

/-- Where a write is on its way to the store. -/
inductive Trail where
  | waiting
  /-- A task has taken it and not yet attempted it. -/
  | held (task : Nat)
  /-- A later write of its key was recorded before it was attempted. -/
  | superseded
  | attempted
deriving DecidableEq, Repr

namespace Trail

/-- Whether nothing is left to be done with a write. -/
def Settled (tr : Trail) : Prop := tr = .superseded ∨ tr = .attempted

instance (tr : Trail) : Decidable tr.Settled := inferInstanceAs (Decidable (_ ∨ _))

theorem not_settled_held (task : Nat) : ¬ (held task).Settled := by
  rintro (h | h) <;> cases h

/-- Where the write of an entry that was recorded in a cache is after one more happening. -/
def next [DecidableEq α] (cache : Nat) (e : Entry α) : Trail → Happening α ε → Trail
  | .waiting, .fetched _ cache' e' =>
    if cache' = cache ∧ e'.key = e.key then .superseded else .waiting
  | .waiting, .took id cache' => if cache' = cache then .held id else .waiting
  | .held task, .fetched _ cache' e' =>
    if cache' = cache ∧ e'.key = e.key then .superseded else .held task
  | .held task, .handed id pass => if id = task then .held pass else .held task
  | .held task, .attempted id w => if id = task ∧ w.entry = e then .attempted else .held task
  | tr, _ => tr

/-- Where the write of an entry that was recorded in a cache is after some more happenings. -/
def after [DecidableEq α] (cache : Nat) (e : Entry α) (tr : Trail)
    (more : List (Happening α ε)) : Trail :=
  more.foldl (next cache e) tr

end Trail

/-- Where the write of an entry that was recorded in a cache is, given what happened after it
    was recorded. -/
def trail [DecidableEq α] (cache : Nat) (e : Entry α) (rest : List (Happening α ε)) : Trail :=
  .after cache e .waiting rest

/-- Whether what happens leaves every write where it is. -/
def Happening.isQuiet : Happening α ε → Bool
  | .fetched _ _ _ => false
  | .took _ _ => false
  | .handed _ _ => false
  | .attempted _ _ => false
  | _ => true

section Lemmas

variable [DecidableEq α] {cache : Nat} {e : Entry α} {rest more : List (Happening α ε)} {tr : Trail}

theorem trail_append :
    trail cache e (rest ++ more) = .after cache e (trail cache e rest) more :=
  List.foldl_append

namespace Trail

theorem after_cons (x : Happening α ε) :
    after cache e tr (x :: more) = after cache e (tr.next cache e x) more := rfl

theorem next_of_isQuiet {x : Happening α ε} (h : x.isQuiet = true) : tr.next cache e x = tr := by
  cases x with
  | fetched id cache' e' => cases h
  | took id cache' => cases h
  | handed id pass => cases h
  | attempted id w => cases h
  | _ => cases tr <;> rfl

theorem after_of_isQuiet {x : Happening α ε} (h : x.isQuiet = true) :
    after cache e tr [x] = tr := next_of_isQuiet h

theorem next_of_settled (h : tr.Settled) (x : Happening α ε) : tr.next cache e x = tr := by
  rcases h with rfl | rfl <;> cases x <;> rfl

theorem after_of_settled (h : tr.Settled) (more : List (Happening α ε)) :
    after cache e tr more = tr := by
  induction more with
  | nil => rfl
  | cons x more ih => rw [after_cons, next_of_settled h, ih]

/-- Whether a write was taken by one of some tasks, or nothing is left to be done with it. -/
def Within (holders : Nat → Prop) (tr : Trail) : Prop :=
  (∃ t, holders t ∧ tr = .held t) ∨ tr.Settled

/-- A write that some tasks took stays with them until it is settled, as long as none of them
    hands it on. -/
theorem Within.after {holders : Nat → Prop} (h : tr.Within holders)
    (hhanded : ∀ t pass, holders t → .handed t pass ∉ more) :
    (after cache e tr more).Within holders := by
  induction more generalizing tr with
  | nil => exact h
  | cons x more ih =>
    rw [after_cons]
    refine ih ?_ fun t pass ht hmem => hhanded t pass ht (List.mem_cons_of_mem x hmem)
    rcases h with ⟨t, ht, rfl⟩ | h
    · cases x with
      | fetched id cache' e' =>
        rw [next]
        split
        · exact Or.inr (Or.inl rfl)
        · exact Or.inl ⟨t, ht, rfl⟩
      | handed id pass =>
        have hid : id ≠ t := by
          rintro rfl
          exact hhanded id pass ht List.mem_cons_self
        rw [next, if_neg hid]
        exact Or.inl ⟨t, ht, rfl⟩
      | attempted id w =>
        rw [next]
        split
        · exact Or.inr (Or.inr rfl)
        · exact Or.inl ⟨t, ht, rfl⟩
      | _ => exact Or.inl ⟨t, ht, rfl⟩
    · rw [next_of_settled h]
      exact Or.inr h

/-- A write that waits keeps waiting as long as nobody takes it, unless a later one takes its
    place. -/
theorem after_waiting (htook : ∀ t, .took t cache ∉ more) :
    after cache e .waiting more = .waiting ∨ after cache e .waiting more = .superseded := by
  induction more with
  | nil => exact Or.inl rfl
  | cons x more ih =>
    have hrest := ih fun t hmem => htook t (List.mem_cons_of_mem x hmem)
    rw [after_cons]
    cases x with
    | fetched id cache' e' =>
      rw [next]
      split
      · exact Or.inr (after_of_settled (Or.inl rfl) more)
      · exact hrest
    | took id cache' =>
      have hne : cache' ≠ cache := by
        rintro rfl
        exact htook id List.mem_cons_self
      rw [next, if_neg hne]
      exact hrest
    | _ => exact hrest

theorem next_ne_waiting (h : tr ≠ .waiting) (x : Happening α ε) :
    tr.next cache e x ≠ .waiting := by
  cases tr with
  | waiting => exact absurd rfl h
  | held t =>
    cases x with
    | fetched id cache' e' =>
      rw [next]
      split <;> exact Trail.noConfusion
    | handed id pass =>
      rw [next]
      split <;> exact Trail.noConfusion
    | attempted id w =>
      rw [next]
      split <;> exact Trail.noConfusion
    | _ => exact Trail.noConfusion
  | superseded =>
    rw [next_of_settled (Or.inl rfl)]
    exact h
  | attempted =>
    rw [next_of_settled (Or.inr rfl)]
    exact h

/-- A write that waits no more never waits again. -/
theorem after_ne_waiting (h : tr ≠ .waiting) (more : List (Happening α ε)) :
    after cache e tr more ≠ .waiting := by
  induction more generalizing tr with
  | nil => exact h
  | cons x more ih => exact ih (next_ne_waiting h x)

theorem next_took_ne_waiting (tr : Trail) (id : Nat) :
    tr.next cache e (.took id cache : Happening α ε) ≠ .waiting := by
  by_cases h : tr = .waiting
  · rw [h, next, if_pos rfl]
    exact Trail.noConfusion
  · exact next_ne_waiting h _

end Trail

/-- What waited when a task took all that waited, waits no more. -/
theorem trail_ne_waiting {id : Nat} (h : .took id cache ∈ rest) :
    trail cache e rest ≠ .waiting := by
  obtain ⟨earlier, later, rfl⟩ := List.append_of_mem h
  rw [trail_append, Trail.after_cons]
  exact Trail.after_ne_waiting (Trail.next_took_ne_waiting _ id) later

end Lemmas

namespace System

/-! ## Writes are where their trails say -/

/-- Whether the write of an entry that was recorded in a cache is where its trail says; what a
    task held when it was aborted is lost with it. -/
def At (s : System α ε σ) (cache : Nat) (e : Entry α) : Trail → Prop
  | .waiting =>
    ∃ c w, s.cache? cache = some c ∧ c.writeBack.pendingFor? e.key = some w ∧ w.entry = e
  | .held id => ∃ t, s.task? id = some t ∧ (t = .aborted ∨ ∃ w ∈ t.unwritten, w.entry = e)
  | _ => True

/-- Whether the writes that wait in any cache do so under their own keys. -/
def Keyed (s : System α ε σ) : Prop := ∀ cache c, s.cache? cache = some c → c.writeBack.Keyed

/-- Whether writes wait under their own keys, and the write of everything that was ever recorded
    is where its trail says. -/
structure Tracked [DecidableEq α] (s : System α ε σ) (log : List (Happening α ε)) : Prop where
  keyed : s.Keyed
  trails : ∀ earlier id cache e later, log = earlier ++ .fetched id cache e :: later →
    s.At cache e (trail cache e later)

section At

variable {s s' : System α ε σ} {cache cache' id : Nat} {e : Entry α} {tr : Trail}

theorem At.congr (h : s.At cache e tr) (hcaches : ∀ cache, s'.cache? cache = s.cache? cache)
    (htasks : ∀ id, s'.task? id = s.task? id) : s'.At cache e tr := by
  cases tr with
  | waiting =>
    obtain ⟨c, w, hc, hw⟩ := h
    exact ⟨c, w, (hcaches cache).trans hc, hw⟩
  | held id =>
    obtain ⟨t, ht, hw⟩ := h
    exact ⟨t, (htasks id).trans ht, hw⟩
  | superseded => exact trivial
  | attempted => exact trivial

/-- A task that goes on without attempting anything loses nothing. -/
theorem At.setTask {t t' : Task α ε} (h : s.At cache e tr) (ht : s.task? id = some t)
    (hw : t = .aborted ∨ (∃ w ∈ t.unwritten, w.entry = e) →
      t' = .aborted ∨ ∃ w ∈ t'.unwritten, w.entry = e) :
    (s.setTask id t').At cache e tr := by
  cases tr with
  | waiting => exact h
  | held id' =>
    obtain ⟨t₀, ht₀, hw₀⟩ := h
    by_cases hid : id = id'
    · refine ⟨t', ?_, ?_⟩
      · rw [task?_setTask, if_pos hid]
      · rw [← hid, ht] at ht₀
        cases ht₀
        exact hw hw₀
    · refine ⟨t₀, ?_, hw₀⟩
      rw [task?_setTask, if_neg hid]
      exact ht₀
  | superseded => exact trivial
  | attempted => exact trivial

/-- A cache that lets wait all that it let wait loses nothing. -/
theorem At.setCache {c c' : TieredCache α} (h : s.At cache e tr) (hc : s.cache? cache' = some c)
    (hpending : cache' = cache → c.writeBack.pendingFor? e.key = c'.writeBack.pendingFor? e.key) :
    (s.setCache cache' c').At cache e tr := by
  cases tr with
  | waiting =>
    obtain ⟨c₀, w, hc₀, hw⟩ := h
    by_cases hcache : cache' = cache
    · rw [← hcache, hc] at hc₀
      cases hc₀
      rw [hpending hcache] at hw
      refine ⟨c', w, ?_, hw⟩
      rw [cache?_setCache, if_pos hcache, ← hcache, hc]
      rfl
    · refine ⟨c₀, w, ?_, hw⟩
      rw [cache?_setCache, if_neg hcache]
      exact hc₀
  | held id => exact h
  | superseded => exact trivial
  | attempted => exact trivial

/-- A task that holds nothing may go on as it likes. -/
theorem At.setTask_of_nil {t : Task α ε} (h : s.At cache e tr) (ht : s.task? id = some t)
    (hlive : t.isOver = false) (hnil : t.unwritten = []) (t' : Task α ε) :
    (s.setTask id t').At cache e tr := by
  refine h.setTask ht ?_
  rintro (rfl | ⟨w, hw, -⟩)
  · cases hlive
  · rw [hnil] at hw
    exact absurd hw List.not_mem_nil

/-- A task that takes all that waits holds it from then on. -/
theorem At.take [DecidableEq α] {t t' : Task α ε} {c : TieredCache α} {now : Instant}
    (h : s.At cache e tr) (hc : s.cache? cache' = some c) (hkeyed : c.writeBack.Keyed)
    (ht : s.task? id = some t) (hlive : t.isOver = false) (hnil : t.unwritten = [])
    (hbatch : t'.unwritten = c.writeBack.batch) :
    ((s.setCache cache' (c.takeAll now).2).setTask id t').At cache e
      (.after cache e tr [.took (ε := ε) id cache']) := by
  cases tr with
  | waiting =>
    show At _ cache e (if cache' = cache then .held id else .waiting)
    by_cases hcache : cache' = cache
    · obtain ⟨c₀, w, hc₀, hw, rfl⟩ := h
      rw [← hcache, hc] at hc₀
      cases hc₀
      rw [if_pos hcache]
      refine ⟨t', ?_, Or.inr ⟨w, ?_, rfl⟩⟩
      · rw [task?_setTask, if_pos rfl]
      · rw [hbatch]
        exact (WriteBack.mem_batch_iff hkeyed).mpr hw
    · have hsame : (s.setCache cache' (c.takeAll now).2).At cache e .waiting :=
        h.setCache hc fun heq => absurd heq hcache
      rw [if_neg hcache]
      exact hsame.setTask_of_nil ht hlive hnil t'
  | held id' =>
    have hsame : (s.setCache cache' (c.takeAll now).2).At cache e (.held id') := h
    exact hsame.setTask_of_nil ht hlive hnil t'
  | superseded => exact trivial
  | attempted => exact trivial

/-- A new task takes nothing away. -/
theorem At.add (h : s.At cache e tr)
    (hnext : ∀ id t, s.task? id = some t → id < s.next) (t : Task α ε) :
    (s.add t).2.At cache e tr := by
  cases tr with
  | waiting => exact h
  | held id =>
    obtain ⟨t', ht', hw⟩ := h
    refine ⟨t', ?_, hw⟩
    have hne : s.next ≠ id := by
      have hlt := hnext id t' ht'
      omega
    show (s.setTask s.next t).task? id = some t'
    rw [task?_setTask, if_neg hne]
    exact ht'
  | superseded => exact trivial
  | attempted => exact trivial

/-- What a lookup fetches supersedes the writes of its key that are not settled. -/
theorem At.fetched [DecidableEq α] {c : TieredCache α} {e' : Entry α}
    (hat : s.At cache e tr) (hc : s.cache? cache' = some c) :
    (s.setCache cache' (c.storeFetched e')).At cache e
      (.after cache e tr [.fetched (ε := ε) id cache' e']) := by
  cases tr with
  | waiting =>
    show At _ cache e (if cache' = cache ∧ e'.key = e.key then .superseded else .waiting)
    by_cases hover : cache' = cache ∧ e'.key = e.key
    · rw [if_pos hover]
      exact trivial
    · rw [if_neg hover]
      refine At.setCache hat hc fun hcache => ?_
      have hkey : e'.key ≠ e.key := fun hkey => hover ⟨hcache, hkey⟩
      have hrecord := WriteBack.pendingFor?_record c.writeBack e' e'.capturedAt e.key
      rw [if_neg hkey] at hrecord
      exact hrecord.symm
  | held id' =>
    show At _ cache e (if cache' = cache ∧ e'.key = e.key then .superseded else .held id')
    by_cases hover : cache' = cache ∧ e'.key = e.key
    · rw [if_pos hover]
      exact trivial
    · rw [if_neg hover]
      exact hat
  | superseded => exact trivial
  | attempted => exact trivial

/-- A lookup that hands its batch to a new pass in the background hands it all its writes. -/
theorem At.handed [DecidableEq α] {key : String} {now : Instant}
    {answer : Except ε (Lookup α)} {batch : List (PendingWrite α)} (hat : s.At cache e tr)
    (ht : s.task? id = some (.lookup cache' key now (.detaching answer batch)))
    (hnext : ∀ id t, s.task? id = some t → id < s.next) :
    (((s.add (.pass cache' (.ofBatch batch))).2).setTask id (.answered answer)).At cache e
      (.after cache e tr [.handed id s.next, .answered id answer]) := by
  have hid := hnext id _ ht
  cases tr with
  | waiting => exact hat
  | held id' =>
    obtain ⟨t', ht', hw⟩ := hat
    by_cases heq : id = id'
    · -- the pass that was made has the batch
      have hhanded : Trail.after cache e (.held id') [.handed id s.next, .answered id answer] =
          .held s.next := by
        rw [Trail.after_cons, Trail.next, if_pos heq]
        rfl
      rw [hhanded]
      rw [← heq, ht] at ht'
      cases ht'
      refine ⟨.pass cache' (.ofBatch batch), ?_, Or.inr ?_⟩
      · have hne : id ≠ s.next := by omega
        show (System.setTask (s.setTask s.next _) id _).task? s.next = _
        rw [task?_setTask, if_neg hne, task?_setTask, if_pos rfl]
      · rcases hw with hlost | hw
        · simp at hlost
        · exact hw
    · have hsame : Trail.after cache e (.held id') [.handed id s.next, .answered id answer] =
          .held id' := by
        rw [Trail.after_cons, Trail.next, if_neg heq]
        rfl
      rw [hsame]
      refine ⟨t', ?_, hw⟩
      have hne : s.next ≠ id' := by
        have hlt := hnext id' t' ht'
        omega
      show (System.setTask (s.setTask s.next _) id _).task? id' = _
      rw [task?_setTask, if_neg heq, task?_setTask, if_neg hne]
      exact ht'
  | superseded => exact trivial
  | attempted => exact trivial

/-- A task that attempts its next write settles that write and no other one. -/
theorem At.attempted [DecidableEq α] {w : PendingWrite α} {rest : List (PendingWrite α)}
    {t t' : Task α ε} (hat : s.At cache e tr) (ht : s.task? id = some t) (hlive : t.isOver = false)
    (hw : t.unwritten = w :: rest) (hrest : t'.unwritten = rest) :
    (s.setTask id t').At cache e (.after cache e tr [.attempted (ε := ε) id w]) := by
  cases tr with
  | waiting => exact hat
  | held id' =>
    show At _ cache e (if id = id' ∧ w.entry = e then .attempted else .held id')
    by_cases hown : id = id' ∧ w.entry = e
    · rw [if_pos hown]
      exact trivial
    · rw [if_neg hown]
      obtain ⟨t₀, ht₀, hlost⟩ := hat
      by_cases hid : id = id'
      · subst hid
        rw [ht] at ht₀
        cases ht₀
        refine ⟨t', task?_setTask_self s id t', Or.inr ?_⟩
        rcases hlost with rfl | ⟨v, hv, hentry⟩
        · cases hlive
        · rw [hw] at hv
          rcases List.mem_cons.mp hv with rfl | hv
          · exact absurd ⟨rfl, hentry⟩ hown
          · exact ⟨v, hrest ▸ hv, hentry⟩
      · refine ⟨t₀, ?_, hlost⟩
        rw [task?_setTask, if_neg hid]
        exact ht₀
  | superseded => exact trivial
  | attempted => exact trivial

end At

/-! ## Waiting writes and their keys -/

section Keyed

variable {s s' : System α ε σ}

theorem Keyed.setCache (h : s.Keyed) {c : TieredCache α} (hc : c.writeBack.Keyed) (cache : Nat) :
    (s.setCache cache c).Keyed := by
  intro cache' c' hc'
  rw [cache?_setCache] at hc'
  split at hc'
  · obtain ⟨_, -, rfl⟩ := Option.map_eq_some_iff.mp hc'
    exact hc
  · exact h cache' c' hc'

theorem Turn.keyed [Payload α] [DurableStore σ] {clock : Instant} {id : Nat} {t : Task α ε}
    {more : List (Happening α ε)} (h : Turn s clock id t more s') (hs : s.Keyed) :
    s'.Keyed := by
  cases h with
  | @hot cache key now c e hc he hfresh =>
    show (s.setCache cache { c with counters := c.counters.recordHotHit }).Keyed
    refine Keyed.setCache hs ?_ cache
    exact hs cache c hc
  | @cold cache key now c hc => exact Keyed.setCache hs (hs cache c hc) cache
  | @durable cache key now c e hc hfresh =>
    show (s.setCache cache { c with
      hot := c.hot.set e, counters := c.counters.recordDurableHit }).Keyed
    refine Keyed.setCache hs ?_ cache
    exact hs cache c hc
  | @call cache key now r c counters hc =>
    show (s.setCache cache { c with counters }).Keyed
    refine Keyed.setCache hs ?_ cache
    exact hs cache c hc
  | fetched payload hc => exact Keyed.setCache hs ((hs _ _ hc).record _ _) _
  | @hand cache key now answer c hc =>
    exact Keyed.setCache hs (WriteBack.keyed_takeAll c.writeBack now) _
  | @begin cache key now answer c hc =>
    exact Keyed.setCache hs (WriteBack.keyed_takeAll c.writeBack now) _
  | @take _ now cache c hf hcache hc =>
    exact Keyed.setCache hs (WriteBack.keyed_takeAll c.writeBack now) _
  | @wrote _ cache c r hp hcache hc =>
    show (s.setCache cache (c.settle r)).Keyed
    refine Keyed.setCache hs ?_ cache
    exact (hs cache c hc).settle r
  | @detach key now answer cache batch =>
    intro cache' c hc
    exact hs cache' c ((cache?_modify_inFlight _ cache cache' (· ++ [s.next])).symm.trans hc)
  | @takeOver _ now cache slot hf hcache hslot =>
    intro cache' c hc
    exact hs cache' c ((cache?_setSlot s cache cache' hslot []).symm.trans hc)
  | _ => exact hs

theorem keyed_ofSpecs (store : σ) (specs : List (String × CacheSettings × Instant)) :
    (ofSpecs store specs : System α ε σ).Keyed := by
  intro cache c hc
  obtain ⟨space, settings, startedAt, rfl⟩ := exists_of_cache?_ofSpecs hc
  exact WriteBack.keyed_start _ _ _

/-- Every event keeps each write under its own key. -/
theorem Keyed.apply [Payload α] [DurableStore σ] (h : s.Keyed) (ev : Event α ε σ) :
    (s.apply ev).Keyed := by
  have hmove := apply_move s ev
  generalize s.news ev = more at hmove
  generalize s.apply ev = s' at hmove ⊢
  cases hmove with
  | step ht hturn => exact hturn.keyed h
  | @invalidate cache q c hc =>
    refine h.setCache ?_ cache
    exact h cache c hc
  | abort => exact abort_induction (P := Keyed) h (fun _ _ _ _ _ h => h) _
  | _ => exact h

theorem keyed_run [Payload α] [DurableStore σ] (store : σ)
    (specs : List (String × CacheSettings × Instant)) (events : List (Event α ε σ)) :
    ((ofSpecs store specs).run events).Keyed := by
  refine prefix_induction (P := fun part => ((ofSpecs store specs).run part).Keyed)
    (keyed_ofSpecs store specs) fun part ev after _ h => ?_
  rw [run_concat]
  exact h.apply ev

end Keyed

/-! ## Turns -/

section Turns

variable [Payload α] [DurableStore σ] {s s' : System α ε σ} {clock : Instant} {cache id : Nat}
  {t : Task α ε} {e : Entry α} {tr : Trail} {more : List (Happening α ε)}

/-- Every step of a task takes each write along its trail. -/
theorem Turn.at [DecidableEq α] (h : Turn s clock id t more s') (ht : s.task? id = some t)
    (hnext : ∀ id t, s.task? id = some t → id < s.next)
    (hkeyed : s.Keyed) (hat : s.At cache e tr) : s'.At cache e (.after cache e tr more) := by
  cases h with
  | idle => exact hat
  | @hot cache' key now c e' hc he hfresh =>
    have hcache :
        (s.setCache cache' { c with counters := c.counters.recordHotHit }).At cache e tr :=
      hat.setCache hc fun _ => rfl
    exact hcache.setTask_of_nil ht rfl rfl _
  | @cold cache' key now c hc =>
    have hcache : (s.setCache cache' c).At cache e tr := hat.setCache hc fun _ => rfl
    exact hcache.setTask_of_nil ht rfl rfl _
  | read store hget =>
    have hstore : ({ s with store } : System α ε σ).At cache e tr :=
      hat.congr (fun _ => rfl) fun _ => rfl
    exact hstore.setTask_of_nil ht rfl rfl _
  | @durable cache' key now c e' hc hfresh =>
    have hcache : (s.setCache cache' { c with
        hot := c.hot.set e', counters := c.counters.recordDurableHit }).At cache e tr :=
      hat.setCache hc fun _ => rfl
    exact hcache.setTask_of_nil ht rfl rfl _
  | @call cache' key now r c counters hc =>
    have hcache : (s.setCache cache' { c with counters }).At cache e tr :=
      hat.setCache hc fun _ => rfl
    rw [Trail.after_of_isQuiet rfl]
    exact hcache.setTask_of_nil ht rfl rfl _
  | fetched payload hc => exact (hat.fetched hc).setTask_of_nil ht rfl rfl _
  | refused err => exact hat.setTask_of_nil ht rfl rfl _
  | rest =>
    rw [Trail.after_of_isQuiet rfl]
    exact hat.setTask_of_nil ht rfl rfl _
  | hand hc => exact hat.take hc (hkeyed _ _ hc) ht rfl rfl rfl
  | begin hc => exact hat.take hc (hkeyed _ _ hc) ht rfl rfl rfl
  | @detach key now answer cache' batch =>
    refine (hat.handed ht hnext).congr (fun cache => ?_) fun _ => rfl
    exact cache?_modify_inFlight _ cache' cache (· ++ [s.next])
  | @write _ cache' c w rest r a store hp hcache hc hw ha =>
    have hstore : ({ s with store } : System α ε σ).At cache e tr :=
      hat.congr (fun _ => rfl) fun _ => rfl
    exact hstore.attempted ht (isOver_of_pass? hp) (unwritten_of_pass? hp)
      (unwritten_of_pass? (pass?_withPass hp _))
  | broke store hp hcache hc hw =>
    have hstore : ({ s with store } : System α ε σ).At cache e tr :=
      hat.congr (fun _ => rfl) fun _ => rfl
    rw [Trail.after_of_isQuiet rfl]
    exact hstore.setTask ht fun _ => Or.inl rfl
  | @wrote _ cache' c r hp hcache hc =>
    have hsettled : (s.setCache cache' (c.settle r)).At cache e tr := hat.setCache hc fun _ => rfl
    have hnil := unwritten_of_pass? hp
    have hend := hsettled.setTask_of_nil ht (isOver_of_pass? hp) hnil (t.afterPass r)
    split
    · rw [Trail.after_of_isQuiet rfl]
      exact hend
    · exact hend
  | wake => exact hat.setTask_of_nil ht rfl rfl _
  | @takeOver _ now cache' slot hf hcache hslot =>
    have hslots : (s.setSlot cache' { slot with inFlight := [] }).At cache e tr :=
      hat.congr (fun cache => cache?_setSlot s cache' cache hslot []) fun _ => rfl
    rw [Trail.after_of_isQuiet rfl]
    exact hslots.setTask_of_nil ht (isOver_of_flushing? hf) (unwritten_of_flushing? hf) _
  | wait hf =>
    exact hat.setTask_of_nil ht (isOver_of_flushing? hf) (unwritten_of_flushing? hf) _
  | join hf hover =>
    exact hat.setTask_of_nil ht (isOver_of_flushing? hf) (unwritten_of_flushing? hf) _
  | take hf hcache hc =>
    exact hat.take hc (hkeyed _ _ hc) ht (isOver_of_flushing? hf) (unwritten_of_flushing? hf)
      (unwritten_withFlush hf _)

/-- What a turn records waits. -/
theorem Turn.of_fetched {id' : Nat} (h : Turn s clock id t more s')
    (hmem : .fetched id' cache e ∈ more) :
    more = [.fetched id' cache e] ∧ s'.At cache e .waiting := by
  cases h with
  | @fetched cache' key now c payload hc =>
    cases List.mem_singleton.mp hmem
    refine ⟨rfl, c.storeFetched ⟨key, payload, now⟩, ⟨⟨key, payload, now⟩, now⟩, ?_, ?_, rfl⟩
    · rw [cache?_setTask, cache?_setCache, if_pos rfl, hc]
      rfl
    · have hrecord := WriteBack.pendingFor?_record c.writeBack ⟨key, payload, now⟩ now key
      rw [if_pos rfl] at hrecord
      exact hrecord
  | wrote hp hcache hc =>
    split at hmem
    · cases List.mem_singleton.mp hmem
    · exact absurd hmem List.not_mem_nil
  | _ => simp at hmem

end Turns

/-! ## Runs -/

section Runs

variable [DecidableEq α] {s s' : System α ε σ} {log more : List (Happening α ε)}

/-- What is kept along every trail is kept along those that are longer. -/
theorem Tracked.extend (h : s.Tracked log) (hkeyed : s'.Keyed)
    (hold : ∀ cache e tr, s.At cache e tr → s'.At cache e (.after cache e tr more))
    (hnew : ∀ earlier id cache e later, more = earlier ++ .fetched id cache e :: later →
      s'.At cache e (trail cache e later)) : s'.Tracked (log ++ more) where
  keyed := hkeyed
  trails earlier id cache e later heq := by
    rcases List.append_eq_append_iff.mp heq with ⟨rest, rfl, hrest⟩ | ⟨rest, rfl, hrest⟩
    · exact hnew rest id cache e later hrest
    · cases rest with
      | nil => exact hnew [] id cache e later hrest.symm
      | cons x rest =>
        rw [List.cons_append, List.cons.injEq] at hrest
        obtain ⟨rfl, rfl⟩ := hrest
        rw [trail_append]
        exact hold cache e _ (h.trails earlier id cache e rest rfl)

theorem Tracked.turn [Payload α] [DurableStore σ] {clock : Instant} {id : Nat} {t : Task α ε}
    (h : s.Tracked log) (hturn : Turn s clock id t more s') (ht : s.task? id = some t)
    (hnext : ∀ id t, s.task? id = some t → id < s.next) : s'.Tracked (log ++ more) := by
  refine h.extend (hturn.keyed h.keyed) (fun cache e tr hat => hturn.at ht hnext h.keyed hat) ?_
  intro earlier id' cache e later heq
  have hmem : .fetched id' cache e ∈ more := by
    rw [heq]
    exact List.mem_append_right earlier List.mem_cons_self
  obtain ⟨rfl, hat⟩ := hturn.of_fetched hmem
  rcases List.append_eq_singleton_iff.mp heq.symm with ⟨-, hx⟩ | ⟨-, hx⟩
  · obtain ⟨-, rfl⟩ := List.cons.inj hx
    exact hat
  · simp at hx

theorem tracked_ofSpecs (store : σ) (specs : List (String × CacheSettings × Instant)) :
    (ofSpecs store specs : System α ε σ).Tracked [] where
  keyed := keyed_ofSpecs store specs
  trails earlier id cache e later heq := by
    rcases List.append_eq_nil_iff.mp heq.symm with ⟨-, hx⟩
    simp at hx

/-- A system that lost nothing, nothing having been recorded, taken or attempted. -/
theorem Tracked.same (h : s.Tracked log) (hkeyed : s'.Keyed)
    (hat : ∀ cache e tr, s.At cache e tr → s'.At cache e tr) : s'.Tracked log := by
  have hextend : s'.Tracked (log ++ []) := h.extend hkeyed hat ?_
  · rw [List.append_nil] at hextend
    exact hextend
  · intro earlier id cache e later heq
    rcases List.append_eq_nil_iff.mp heq.symm with ⟨-, hx⟩
    simp at hx

/-- Every event keeps the invariant. -/
theorem Move.tracked [Payload α] [DurableStore σ] {ev : Event α ε σ} (hmove : Move s ev more s')
    (h : s.Tracked log) (hnext : ∀ id t, s.task? id = some t → id < s.next) :
    s'.Tracked (log ++ more) := by
  have hadd : ∀ t, (s.add t).2.Tracked log := fun t =>
    h.same h.keyed fun cache e tr hat => hat.add hnext t
  cases hmove with
  | @lookup cache q now c hc =>
    refine (hadd (.lookup cache (c.keyFor q) now .asking)).extend (hadd _).keyed ?_ ?_
    · intro cache' e tr hat
      rw [Trail.after_of_isQuiet rfl]
      exact hat
    · intro earlier id cache' e later heq
      rcases List.append_eq_singleton_iff.mp heq.symm with ⟨-, hx⟩ | ⟨-, hx⟩ <;> cases hx
  | step ht hturn => exact h.turn hturn ht hnext
  | @invalidate cache q c hc =>
    rw [List.append_nil]
    refine h.same ?_ fun cache' e tr hat => hat.setCache hc fun _ => rfl
    refine h.keyed.setCache ?_ cache
    exact h.keyed cache c hc
  | abort =>
    rw [List.append_nil]
    exact abort_induction (P := fun s => s.Tracked log) h
      (fun s id t ht _ h =>
        h.same h.keyed fun cache e tr hat => hat.setTask ht fun _ => Or.inl rfl) _
  | idle => rw [List.append_nil]; exact h
  | flush => rw [List.append_nil]; exact hadd _
  | maintain => rw [List.append_nil]; exact hadd _
  | disturb =>
    rw [List.append_nil]
    exact h.same h.keyed fun cache e tr hat => hat.congr (fun _ => rfl) fun _ => rfl

end Runs

end System

end MarketCache
