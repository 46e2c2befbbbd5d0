import MarketCache.Proofs.Query.KeyUnique
import MarketCache.Proofs.System.Access
import MarketCache.Proofs.System.Sequential
import MarketCache.Proofs.WriteBack.Batch

/-!
# Every cache keeps to its namespace

A lookup of a cache uses the key that its query has in the namespace of the cache. What the lookup
fetches waits under this key, and is written under it. So all that the tasks of a cache ask of
the store is about keys of its namespace, and keys of different namespaces are different.

Main definitions:
* `InSpace`: a key is one of a namespace.
* `System.Sited`: the invariant.

Results:
* `InSpace.ne`: keys of different namespaces are different.
* `sited_run`: in every run the caches stay as they were set up, and their tasks keep to their
  namespaces.
* `inSpace_of_fetched`: what is fetched is of a key of the namespace.
-/

namespace MarketCache

variable {α ε σ : Type}

/-- Whether a key is that of some query in a namespace. -/
def InSpace (space key : String) : Prop := ∃ q : LogicalQuery, q.key space = key

theorem InSpace.ne {space space' key key' : String} (h : InSpace space key)
    (h' : InSpace space' key') (hne : space ≠ space') : key ≠ key' := by
  obtain ⟨q, rfl⟩ := h
  obtain ⟨q', rfl⟩ := h'
  exact fun heq => hne (LogicalQuery.space_eq_of_key_eq heq)

/-- The key of the query of a task, if it is a lookup. -/
def Task.key? : Task α ε → Option String
  | .lookup _ key _ _ => some key
  | _ => none

/-- The keys that a task uses: that of its query, and those of its writes. -/
def Task.keys (t : Task α ε) : List String := t.key?.toList ++ t.unwritten.map (·.key)

theorem Task.mem_keys_of_mem_unwritten {t : Task α ε} {w : PendingWrite α} (h : w ∈ t.unwritten) :
    w.key ∈ t.keys := List.mem_append_right _ (List.mem_map_of_mem h)

namespace System

/-- Whether each cache is set up as its number says, what waits in it is of its namespace, and so
    are the keys that its tasks use. -/
structure Sited (specs : List (String × CacheSettings × Instant)) (s : System α ε σ) : Prop where
  caches : ∀ k c, s.cache? k = some c → ∃ space settings startedAt,
    specs[k]? = some (space, settings, startedAt) ∧ SetUp space settings c
  waiting : ∀ k c, s.cache? k = some c → ∀ key w, c.writeBack.pendingFor? key = some w →
    InSpace c.space w.key
  tasks : ∀ id t k c, s.task? id = some t → t.cache? = some k → s.cache? k = some c →
    ∀ key ∈ t.keys, InSpace c.space key

section Sited

variable {specs : List (String × CacheSettings × Instant)} {s s' : System α ε σ} {id k : Nat}
  {t t' : Task α ε} {c c' : TieredCache α}

theorem sited_ofSpecs (store : σ) (specs : List (String × CacheSettings × Instant)) :
    (ofSpecs store specs : System α ε σ).Sited specs where
  caches k c hc := by
    unfold cache? ofSpecs ofCaches at hc
    rw [List.getElem?_map, List.getElem?_map] at hc
    rcases hspec : specs[k]? with _ | ⟨space, settings, startedAt⟩
    · rw [hspec] at hc
      cases hc
    · rw [hspec] at hc
      cases hc
      exact ⟨space, settings, startedAt, rfl, rfl, rfl, rfl, rfl⟩
  waiting k c hc key w hw := by
    obtain ⟨space, settings, startedAt, rfl⟩ := exists_of_cache?_ofSpecs hc
    have hnone := WriteBack.pendingFor?_start (α := α) settings.flushIntervalSecs
      settings.durableTtlSecs startedAt key
    cases hnone.symm.trans hw
  tasks id t k c ht := by
    rw [task?_ofSpecs] at ht
    cases ht

theorem Sited.congr (h : s.Sited specs) (hcaches : ∀ k, s'.cache? k = s.cache? k)
    (htasks : ∀ id, s'.task? id = s.task? id) : s'.Sited specs where
  caches k c hc := h.caches k c (hcaches k ▸ hc)
  waiting k c hc := h.waiting k c (hcaches k ▸ hc)
  tasks id t k c ht hk hc := h.tasks id t k c (htasks id ▸ ht) hk (hcaches k ▸ hc)

theorem Sited.setTask (h : s.Sited specs)
    (hkeys : ∀ k c, t.cache? = some k → s.cache? k = some c → ∀ key ∈ t.keys, InSpace c.space key) :
    (s.setTask id t).Sited specs where
  caches := h.caches
  waiting := h.waiting
  tasks id' t' k c ht' := by
    rw [task?_setTask] at ht'
    split at ht'
    · cases ht'
      exact hkeys k c
    · exact h.tasks id' t' k c ht'

/-- A task that is over uses no keys. -/
theorem Sited.endTask (h : s.Sited specs) (hover : t.cache? = none) :
    (s.setTask id t).Sited specs :=
  h.setTask fun k c hk => by cases hover.symm.trans hk

/-- A task that goes on with no keys but its own. -/
theorem Sited.goOn (h : s.Sited specs) (ht : s.task? id = some t)
    (hcache : t'.cache? = t.cache?) (hkeys : ∀ key ∈ t'.keys, key ∈ t.keys) :
    (s.setTask id t').Sited specs :=
  h.setTask fun k c hk hc key hkey =>
    h.tasks id t k c ht (hcache ▸ hk) hc key (hkeys key hkey)

theorem Sited.setCache (h : s.Sited specs) (hc : s.cache? k = some c) (hspace : c'.space = c.space)
    (hpolicy : c'.policy = c.policy) (hbackground : c'.backgroundFlush = c.backgroundFlush)
    (httl : c'.writeBack.ttlSecs = c.writeBack.ttlSecs)
    (hwaiting : ∀ key w, c'.writeBack.pendingFor? key = some w → InSpace c.space w.key) :
    (s.setCache k c').Sited specs := by
  have hspaces : ∀ k' c₁, (s.setCache k c').cache? k' = some c₁ →
      (k' = k ∧ c₁ = c') ∨ s.cache? k' = some c₁ := by
    intro k' c₁ hc₁
    rw [cache?_setCache] at hc₁
    split at hc₁
    · next heq =>
      obtain ⟨_, -, rfl⟩ := Option.map_eq_some_iff.mp hc₁
      exact Or.inl ⟨heq.symm, rfl⟩
    · exact Or.inr hc₁
  refine ⟨fun k' c₁ hc₁ => ?_, fun k' c₁ hc₁ => ?_, fun id t k' c₁ ht hk hc₁ => ?_⟩
  · rcases hspaces k' c₁ hc₁ with ⟨rfl, rfl⟩ | hold
    · obtain ⟨space, settings, startedAt, hspec, hset⟩ := h.caches _ c hc
      exact ⟨space, settings, startedAt, hspec, hspace.trans hset.space,
        hpolicy.trans hset.policy, hbackground.trans hset.background, httl.trans hset.ttl⟩
    · exact h.caches k' c₁ hold
  · rcases hspaces k' c₁ hc₁ with ⟨rfl, rfl⟩ | hold
    · rw [hspace]
      exact hwaiting
    · exact h.waiting k' c₁ hold
  · rcases hspaces k' c₁ hc₁ with ⟨rfl, rfl⟩ | hold
    · rw [hspace]
      exact h.tasks id t _ c ht hk hc
    · exact h.tasks id t k' c₁ ht hk hold

/-- What a cache hands out is of its namespace. -/
theorem Sited.batch (h : s.Sited specs) (hc : s.cache? k = some c) {w : PendingWrite α}
    (hw : w ∈ c.writeBack.batch) : InSpace c.space w.key := by
  obtain ⟨key, hkey⟩ := WriteBack.exists_of_mem_batch hw
  exact h.waiting k c hc key w hkey

/-- A cache from which all is taken. -/
theorem Sited.takeAll (h : s.Sited specs) (hc : s.cache? k = some c) (now : Instant) :
    (s.setCache k (c.takeAll now).2).Sited specs := by
  refine h.setCache hc rfl rfl rfl rfl fun key w hw => ?_
  have hnone := WriteBack.pendingFor?_takeAll c.writeBack now key
  cases hnone.symm.trans hw

/-- A new task. -/
theorem Sited.add (h : s.Sited specs)
    (hkeys : ∀ k c, t.cache? = some k → s.cache? k = some c → ∀ key ∈ t.keys, InSpace c.space key) :
    (s.add t).2.Sited specs := by
  have hset : (s.setTask s.next t).Sited specs := h.setTask hkeys
  exact hset.congr (fun _ => rfl) fun _ => rfl

theorem cache?_withPass {p : Pass α} (hp : t.pass? = some p) (p' : Pass α) :
    (t.withPass p').cache? = t.cache? ∧ (t.withPass p').key? = t.key? := by
  rcases writer_cases hp with ⟨_, _, _, _, rfl⟩ | ⟨_, _, rfl⟩ | ⟨_, rfl⟩ | ⟨_, _, _, rfl⟩ <;>
    exact ⟨rfl, rfl⟩

theorem cache?_withFlush {now : Instant} {stage : FlushStage α}
    (hf : t.flushing? = some (now, stage)) (stage' : FlushStage α) :
    (t.withFlush stage').cache? = t.cache? ∧ (t.withFlush stage').key? = none := by
  rcases flusher_cases hf with ⟨_, rfl⟩ | ⟨_, _, rfl⟩ <;> exact ⟨rfl, rfl⟩

theorem keys_withFlush {now : Instant} {stage : FlushStage α}
    (hf : t.flushing? = some (now, stage)) (stage' : FlushStage α) :
    (t.withFlush stage').keys = stage'.unwritten.map (·.key) := by
  unfold Task.keys
  rw [(cache?_withFlush hf stage').2, unwritten_withFlush hf]
  rfl

/-- A flush that goes on with nothing in hand. -/
theorem Sited.withFlush (h : s.Sited specs) {now : Instant} {stage : FlushStage α}
    (hf : t.flushing? = some (now, stage)) {stage' : FlushStage α} (hnone : stage'.unwritten = []) :
    (s.setTask id (t.withFlush stage')).Sited specs := by
  refine h.setTask fun k c hk hc key hkey => ?_
  rw [keys_withFlush hf, hnone] at hkey
  exact absurd hkey List.not_mem_nil

theorem keys_afterPass {p : Pass α} (hp : t.pass? = some p) (r : FlushReport) :
    (t.afterPass r).keys = [] := by
  rcases writer_cases hp with ⟨_, _, _, _, rfl⟩ | ⟨_, _, rfl⟩ | ⟨_, rfl⟩ | ⟨_, _, _, rfl⟩ <;> rfl

/-- A task that takes all that waits. -/
theorem Sited.take (h : s.Sited specs) (ht : s.task? id = some t) (hcache : t.cache? = some k)
    (hc : s.cache? k = some c) (hcache' : t'.cache? = some k) (hkey : t'.key? = t.key?)
    (hbatch : t'.unwritten = c.writeBack.batch) (now : Instant) :
    ((s.setCache k (c.takeAll now).2).setTask id t').Sited specs := by
  refine (h.takeAll hc now).setTask fun k₁ c₁ hk₁ hc₁ key hmem => ?_
  cases hcache'.symm.trans hk₁
  have hspace : c₁.space = c.space := by
    rw [cache?_setCache, if_pos rfl, hc] at hc₁
    cases hc₁
    rfl
  rw [hspace]
  unfold Task.keys at hmem
  rw [hkey, hbatch] at hmem
  rcases List.mem_append.mp hmem with hmem | hmem
  · exact h.tasks id t k c ht hcache hc key (List.mem_append_left _ hmem)
  · obtain ⟨w, hw, rfl⟩ := List.mem_map.mp hmem
    exact h.batch hc hw

variable [Payload α] [DurableStore σ] {clock : Instant} {more log : List (Happening α ε)}

theorem Turn.sited (hturn : Turn s clock id t more s') (ht : s.task? id = some t)
    (h : s.Sited specs) : s'.Sited specs := by
  have hstore : ∀ store, System.Sited specs { s with store } := fun store =>
    h.congr (fun _ => rfl) fun _ => rfl
  have hcache : ∀ {k c} (c' : TieredCache α), s.cache? k = some c → c'.space = c.space →
      c'.policy = c.policy → c'.backgroundFlush = c.backgroundFlush →
      c'.writeBack.ttlSecs = c.writeBack.ttlSecs →
      (∀ key, c'.writeBack.pendingFor? key = c.writeBack.pendingFor? key) →
      (s.setCache k c').Sited specs :=
    fun {k c} c' hc hspace hpolicy hbackground httl hsame =>
      h.setCache hc hspace hpolicy hbackground httl fun key w hw =>
        h.waiting k c hc key w (hsame key ▸ hw)
  cases hturn with
  | idle => exact h
  | @hot cache key now c e hc he hfresh =>
    exact (hcache { c with counters := c.counters.recordHotHit } hc rfl rfl rfl rfl
      fun _ => rfl).goOn ht rfl fun _ hkey => hkey
  | @cold cache key now c hc =>
    exact (hcache c hc rfl rfl rfl rfl fun _ => rfl).goOn ht rfl fun _ hkey => hkey
  | read store => exact (hstore store).goOn ht rfl fun _ hkey => hkey
  | @durable cache key now c e hc hfresh =>
    exact (hcache { c with hot := c.hot.set e, counters := c.counters.recordDurableHit } hc
      rfl rfl rfl rfl fun _ => rfl).goOn ht rfl fun _ hkey => hkey
  | @call cache key now r c counters hc =>
    exact (hcache { c with counters } hc rfl rfl rfl rfl fun _ => rfl).goOn ht rfl
      fun _ hkey => hkey
  | @fetched cache key now c payload hc =>
    have hkey : InSpace c.space key := h.tasks id _ cache c ht rfl hc key List.mem_cons_self
    have hcaches : (s.setCache cache (c.storeFetched ⟨key, payload, now⟩)).Sited specs := by
      refine h.setCache hc rfl rfl rfl rfl fun key' w hw => ?_
      have hrecord : (c.writeBack.record ⟨key, payload, now⟩ now).pendingFor? key' = some w := hw
      rw [WriteBack.pendingFor?_record] at hrecord
      split at hrecord
      · cases hrecord
        exact hkey
      · exact h.waiting cache c hc key' w hrecord
    exact hcaches.goOn ht rfl fun _ hkey => hkey
  | refused err => exact h.goOn ht rfl fun _ hkey => hkey
  | rest => exact h.endTask rfl
  | @hand cache key now answer c hc =>
    refine h.take ht rfl hc ?_ ?_ ?_ now
    all_goals rfl
  | @begin cache key now answer c hc =>
    refine h.take ht rfl hc ?_ ?_ ?_ now
    all_goals rfl
  | @detach key now answer cache batch c hc =>
    have hadd : (s.add (.pass cache (.ofBatch batch))).2.Sited specs := by
      refine h.add fun k c₁ hk hc₁ key' hmem => ?_
      cases hk
      exact h.tasks id _ cache c₁ ht rfl hc₁ key' (List.mem_append_right _ hmem)
    refine Sited.endTask ?_ rfl
    exact hadd.congr (fun k => cache?_modify_inFlight _ cache k (· ++ [s.next])) fun _ => rfl
  | @write _ cache c w rest r a store hp hcache' hc hw ha =>
    obtain ⟨hsame, hkey⟩ := cache?_withPass hp ⟨rest, r.tally a⟩
    refine (hstore store).goOn ht hsame fun key hmem => ?_
    unfold Task.keys at hmem ⊢
    rw [hkey, unwritten_of_pass? (pass?_withPass hp _)] at hmem
    rw [unwritten_of_pass? hp, List.map_cons]
    rcases List.mem_append.mp hmem with hmem | hmem
    · exact List.mem_append_left _ hmem
    · exact List.mem_append_right _ (List.mem_cons_of_mem _ hmem)
  | broke store => exact (hstore store).endTask rfl
  | @wrote _ cache c r hp hcache' hc =>
    refine (hcache (c.settle r) hc rfl rfl rfl rfl fun _ => rfl).setTask fun _ _ _ _ key hmem => ?_
    rw [keys_afterPass hp] at hmem
    exact absurd hmem List.not_mem_nil
  | wake => exact h.goOn ht rfl fun _ hkey => hkey
  | @takeOver _ now cache slot hf hcache' hslot =>
    have hslots : (s.setSlot cache { slot with inFlight := [] }).Sited specs :=
      h.congr (fun k => cache?_setSlot s cache k hslot []) fun _ => rfl
    exact hslots.withFlush hf rfl
  | wait hf => exact h.withFlush hf rfl
  | join hf hover => exact h.withFlush hf rfl
  | @take _ now cache c hf hcache' hc =>
    refine h.take ht hcache' hc ((cache?_withFlush hf _).1.trans hcache') ?_
      (unwritten_withFlush hf _) now
    rw [(cache?_withFlush hf _).2]
    rcases flusher_cases hf with ⟨_, rfl⟩ | ⟨_, _, rfl⟩ <;> rfl

theorem Move.sited {ev : Event α ε σ} (hmove : Move s ev more s') (h : s.Sited specs) :
    s'.Sited specs := by
  cases hmove with
  | idle => exact h
  | @lookup cache q now c hc =>
    refine h.add fun k c₁ hk hc₁ key hmem => ?_
    cases hk
    cases hc.symm.trans hc₁
    cases List.mem_singleton.mp hmem
    exact ⟨q, rfl⟩
  | flush => exact h.add fun _ _ _ _ _ hmem => absurd hmem List.not_mem_nil
  | maintain => exact h.add fun _ _ _ _ _ hmem => absurd hmem List.not_mem_nil
  | @invalidate cache q c hc => exact h.setCache hc rfl rfl rfl rfl (h.waiting cache c hc)
  | step ht hturn => exact hturn.sited ht h
  | abort =>
    exact abort_induction (P := fun s => s.Sited specs) h (fun s id t _ _ h => h.endTask rfl) _
  | disturb => exact h.congr (fun _ => rfl) fun _ => rfl

theorem Sited.run (h : s.Sited specs) (events : List (Event α ε σ)) :
    (s.run events).Sited specs := by
  induction events generalizing s with
  | nil => exact h
  | cons ev events ih => exact ih ((apply_move s ev).sited h)

/-- In every run the caches stay as they were set up, and their tasks keep to their namespaces. -/
theorem sited_run (store : σ) (specs : List (String × CacheSettings × Instant))
    (events : List (Event α ε σ)) : ((ofSpecs store specs).run events).Sited specs :=
  (sited_ofSpecs store specs).run events

/-- What is fetched is of a key of the namespace of its cache. -/
theorem inSpace_of_fetched (store : σ) {specs : List (String × CacheSettings × Instant)}
    {events : List (Event α ε σ)} {cache : Nat} {e : Entry α}
    (h : .fetched id cache e ∈ (ofSpecs store specs).history events) :
    ∃ space settings startedAt, specs[cache]? = some (space, settings, startedAt) ∧
      InSpace space e.key := by
  revert h
  refine prefix_induction (P := fun part =>
    .fetched id cache e ∈ (ofSpecs store specs).history part →
      ∃ space settings startedAt, specs[cache]? = some (space, settings, startedAt) ∧
        InSpace space e.key) (fun h => absurd h List.not_mem_nil) fun part ev after _ ih h => ?_
  rw [history_concat] at h
  rcases List.mem_append.mp h with hold | hnew
  · exact ih hold
  have hsited := sited_run store specs part
  have hmove := apply_move ((ofSpecs store specs).run part) ev
  generalize ((ofSpecs store specs).run part).news ev = more at hmove hnew
  generalize ((ofSpecs store specs).run part).apply ev = s' at hmove
  cases hmove with
  | step ht hturn =>
    obtain ⟨rfl, c, hc, rfl, -⟩ := hturn.exists_of_fetched hnew
    obtain ⟨space, settings, startedAt, hspec, hsetUp⟩ := hsited.caches cache c hc
    refine ⟨space, settings, startedAt, hspec, ?_⟩
    rw [← hsetUp.space]
    exact hsited.tasks _ _ cache c ht rfl hc e.key List.mem_cons_self
  | lookup hc => simp at hnew
  | _ => exact absurd hnew List.not_mem_nil

end Sited

end System

end MarketCache
