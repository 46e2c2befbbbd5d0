import MarketCache.Proofs.Store.Truthful
import MarketCache.Proofs.System.Numbers
import MarketCache.Proofs.WriteBack.Batch

/-!
# Where answers come from

Whatever a cache hands out was fetched by a lookup of the same key. What a lookup fetched is
kept under its key in the hot tier, waits under it to be written, is carried about in the
batches of passes, and is put into the store; the capture time travels with the payload all
the way. The invariant `Sound` says so of all these places at once, for all the caches over
one store.

Main definitions:
* `System.Origin`: an entry was fetched by a lookup of its key.
* `System.Justified`: an answer is what it should be.
* `System.Sound`: the invariant.

Results:
* `Sound.turn`, `Move.sound`: every step and every event keeps the invariant.
* `answer_provenance`: where the answers of a run come from.
-/

namespace MarketCache

namespace System

variable {α ε σ : Type}

/-! ## Entries and answers -/

section Origin

variable {s₀ : System α ε σ} {log more : List (Happening α ε)} {id cache : Nat}
  {c : TieredCache α} {key : String} {now : Instant} {e : Entry α} {a : Lookup α}

/-- Whether an entry was fetched by a lookup of its key, at the time of that lookup; `s₀` is the
    system at the start. -/
def Origin (s₀ : System α ε σ) (log : List (Happening α ε)) (e : Entry α) : Prop :=
  ∃ id cache q c, .asked id cache q e.capturedAt ∈ log ∧ s₀.cache? cache = some c ∧
    .fetched id cache e ∈ log ∧ c.keyFor q = e.key

theorem Origin.mono (h : Origin s₀ log e) (more : List (Happening α ε)) :
    Origin s₀ (log ++ more) e := by
  obtain ⟨id, cache, q, c, hasked, hc, hfetched, hkey⟩ := h
  exact ⟨id, cache, q, c, List.mem_append_left more hasked, hc,
    List.mem_append_left more hfetched, hkey⟩

/-- Whether the lookup of a number, of a key as of `now`, may give an answer: either it fetched
    the answer itself, or it did not ask the provider and the answer was fetched by some lookup
    of the key and is still fresh. -/
def Justified (s₀ : System α ε σ) (log : List (Happening α ε)) (id cache : Nat)
    (c : TieredCache α) (key : String) (now : Instant) (a : Lookup α) : Prop :=
  a.key = key ∧
    (a.fromCache = false →
      .fetched id cache ⟨a.key, a.payload, a.capturedAt⟩ ∈ log ∧ a.capturedAt = now) ∧
    (a.fromCache = true →
      .called id ∉ log ∧ Origin s₀ log ⟨a.key, a.payload, a.capturedAt⟩ ∧
        now.since a.capturedAt < .ofSeconds c.policy.pollingIntervalSecs)

theorem Justified.mono (h : Justified s₀ log id cache c key now a)
    (hcalled : .called id ∉ more) : Justified s₀ (log ++ more) id cache c key now a := by
  obtain ⟨hkey, hown, htier⟩ := h
  refine ⟨hkey, fun ha => ?_, fun ha => ?_⟩
  · obtain ⟨hfetched, hnow⟩ := hown ha
    exact ⟨List.mem_append_left more hfetched, hnow⟩
  · obtain ⟨hnot, horigin, hfresh⟩ := htier ha
    refine ⟨fun hmem => ?_, horigin.mono more, hfresh⟩
    rcases List.mem_append.mp hmem with hmem | hmem
    · exact hnot hmem
    · exact hcalled hmem

/-- A fresh entry of a tier justifies the answer with it. -/
theorem justified_cached (hkey : e.key = key) (horigin : Origin s₀ log e)
    (hcalled : .called id ∉ log) (hfresh : c.policy.isFresh e now = true) :
    Justified s₀ log id cache c key now (.cached e) :=
  ⟨hkey, fun ha => Bool.noConfusion ha, fun _ => ⟨hcalled, horigin, isFresh_iff.mp hfresh⟩⟩

/-- What a lookup fetched justifies its answer. -/
theorem justified_fetched {payload : α} (h : .fetched id cache ⟨key, payload, now⟩ ∈ log) :
    Justified s₀ log id cache c key now (.fetched ⟨key, payload, now⟩) :=
  ⟨rfl, fun _ => ⟨h, rfl⟩, fun ha => Bool.noConfusion ha⟩

end Origin

/-! ## The invariant -/

/-- What holds of a cache: it is one of the caches of the start, and all that it keeps was
    fetched. -/
structure CacheSound (s₀ : System α ε σ) (log : List (Happening α ε)) (cache : Nat)
    (c : TieredCache α) : Prop where
  start : ∃ c₀, s₀.cache? cache = some c₀ ∧ c.space = c₀.space ∧ c.policy = c₀.policy
  hot : ∀ key e, c.hot.get? key = some e → e.key = key ∧ Origin s₀ log e
  pending : ∀ key w, c.writeBack.pendingFor? key = some w → Origin s₀ log w.entry

/-- What holds of a stage of the lookup of a number, of a key as of `now`. -/
def StageSound (s₀ : System α ε σ) (log : List (Happening α ε)) (id cache : Nat)
    (c : TieredCache α) (key : String) (now : Instant) : LookupStage α ε → Prop
  | .asking => .called id ∉ log
  | .reading => .called id ∉ log
  | .judging r => .called id ∉ log ∧ ∀ e, r = .found e → e.key = key ∧ Origin s₀ log e
  | .fetching => True
  | .closing answer => ∀ a, answer = .ok a → Justified s₀ log id cache c key now a
  | .detaching answer _ => ∀ a, answer = .ok a → Justified s₀ log id cache c key now a
  | .writing answer _ => ∀ a, answer = .ok a → Justified s₀ log id cache c key now a

/-- What holds of a task: a lookup was asked for, and is at a sound stage. -/
def TaskSound (s₀ : System α ε σ) (log : List (Happening α ε)) (id : Nat) : Task α ε → Prop
  | .lookup cache key now stage =>
    ∃ q c, .asked id cache q now ∈ log ∧ s₀.cache? cache = some c ∧ c.keyFor q = key ∧
      StageSound s₀ log id cache c key now stage
  | _ => True

/-- What was asked for by the lookup of a number, which is asked for only once, and that it may
    be answered so. -/
def Answered (s₀ : System α ε σ) (log : List (Happening α ε)) (id : Nat) (a : Lookup α) : Prop :=
  ∃ cache q now c,
    (∀ cache' q' now', .asked id cache' q' now' ∈ log ↔ cache' = cache ∧ q' = q ∧ now' = now) ∧
    s₀.cache? cache = some c ∧ Justified s₀ log id cache c (c.keyFor q) now a

/-- Whether all that the caches, the store and the tasks have was fetched, and all answers were
    justified. -/
structure Sound [Payload α] [DurableStore σ] [TruthfulStore σ] (s₀ s : System α ε σ)
    (log : List (Happening α ε)) : Prop where
  caches : ∀ cache c, s.cache? cache = some c → CacheSound s₀ log cache c
  store : ∀ key v, TruthfulStore.Keeps s.store key v →
    ∃ e, Origin s₀ log e ∧ e.key = key ∧ e.encode? = some v
  tasks : ∀ id t, s.task? id = some t → TaskSound s₀ log id t
  unwritten : ∀ id t, s.task? id = some t → ∀ w ∈ t.unwritten, Origin s₀ log w.entry
  once : ∀ id cache q now cache' q' now', .asked id cache q now ∈ log →
    .asked id cache' q' now' ∈ log → cache' = cache ∧ q' = q ∧ now' = now
  answers : ∀ before id a after, log = before ++ .answered id (.ok a) :: after →
    Answered s₀ before id a

/-! ## A longer history -/

section History

variable {s₀ s : System α ε σ} {log more : List (Happening α ε)} {id cache : Nat}

theorem CacheSound.mono {c : TieredCache α} (h : CacheSound s₀ log cache c)
    (more : List (Happening α ε)) : CacheSound s₀ (log ++ more) cache c where
  start := h.start
  hot key e he := by
    obtain ⟨hkey, horigin⟩ := h.hot key e he
    exact ⟨hkey, horigin.mono more⟩
  pending key w hw := (h.pending key w hw).mono more

theorem not_called_append (h : Happening.called (α := α) (ε := ε) id ∉ log)
    (hmore : .called id ∉ more) : .called id ∉ log ++ more := by
  intro hmem
  rcases List.mem_append.mp hmem with hmem | hmem
  · exact h hmem
  · exact hmore hmem

theorem StageSound.mono {c : TieredCache α} {key : String} {now : Instant}
    {stage : LookupStage α ε} (h : StageSound s₀ log id cache c key now stage)
    (hcalled : .called id ∉ more) : StageSound s₀ (log ++ more) id cache c key now stage := by
  cases stage with
  | asking => exact not_called_append h hcalled
  | reading => exact not_called_append h hcalled
  | judging r =>
    refine ⟨not_called_append h.1 hcalled, fun e he => ?_⟩
    obtain ⟨hkey, horigin⟩ := h.2 e he
    exact ⟨hkey, horigin.mono more⟩
  | fetching => exact trivial
  | closing answer => exact fun a ha => (h a ha).mono hcalled
  | detaching answer batch => exact fun a ha => (h a ha).mono hcalled
  | writing answer p => exact fun a ha => (h a ha).mono hcalled

theorem TaskSound.mono {t : Task α ε} (h : TaskSound s₀ log id t) (hcalled : .called id ∉ more) :
    TaskSound s₀ (log ++ more) id t := by
  cases t with
  | lookup cache key now stage =>
    obtain ⟨q, c, hasked, hc, hkey, hstage⟩ := h
    exact ⟨q, c, List.mem_append_left more hasked, hc, hkey, hstage.mono hcalled⟩
  | _ => exact trivial

end History

/-! ### Changes of a cache and of a task -/

section Parts

variable {s₀ s : System α ε σ} {log : List (Happening α ε)} {id cache : Nat} {t : Task α ε}

theorem CacheSound.policy_eq {c c₀ : TieredCache α} (h : CacheSound s₀ log cache c)
    (hc₀ : s₀.cache? cache = some c₀) : c.policy = c₀.policy := by
  obtain ⟨c₁, hc₁, -, hpolicy⟩ := h.start
  rw [hc₀] at hc₁
  cases hc₁
  exact hpolicy

/-- A cache that took all that waited. -/
theorem CacheSound.takeAll {c : TieredCache α} (h : CacheSound s₀ log cache c) (now : Instant) :
    CacheSound s₀ log cache (c.takeAll now).2 where
  start := h.start
  hot := h.hot
  pending key w hw := by
    have hnone := WriteBack.pendingFor?_takeAll c.writeBack now key
    rw [show (c.takeAll now).2.writeBack = (c.writeBack.takeAll now).2 from rfl, hnone] at hw
    simp at hw

theorem CacheSound.batch {c : TieredCache α} (h : CacheSound s₀ log cache c) :
    ∀ w ∈ c.writeBack.batch, Origin s₀ log w.entry := by
  intro w hw
  obtain ⟨key, hkey⟩ := WriteBack.exists_of_mem_batch hw
  exact h.pending key w hkey

/-- A cache that keeps one more entry in its hot tier. -/
theorem CacheSound.hotSet {c : TieredCache α} (h : CacheSound s₀ log cache c) {e : Entry α}
    (he : Origin s₀ log e) (counters : CacheStats) :
    CacheSound s₀ log cache { c with hot := c.hot.set e, counters } where
  start := h.start
  hot key e' he' := by
    rw [HotTier.get?_set] at he'
    split at he'
    · next hkey =>
      cases he'
      exact ⟨hkey, he⟩
    · exact h.hot key e' he'
  pending := h.pending

theorem CacheSound.storeFetched {c : TieredCache α} (h : CacheSound s₀ log cache c)
    {e : Entry α} (he : Origin s₀ log e) : CacheSound s₀ log cache (c.storeFetched e) where
  start := h.start
  hot := (h.hotSet he c.counters).hot
  pending key w hw := by
    have hrecord := WriteBack.pendingFor?_record c.writeBack e e.capturedAt key
    rw [show (c.storeFetched e).writeBack = c.writeBack.record e e.capturedAt from rfl,
      hrecord] at hw
    split at hw
    · cases hw
      exact he
    · exact h.pending key w hw

theorem TaskSound.withPass {p : Pass α} (h : TaskSound s₀ log id t) (hp : t.pass? = some p)
    (p' : Pass α) : TaskSound s₀ log id (t.withPass p') := by
  rcases writer_cases hp with ⟨_, _, _, _, rfl⟩ | ⟨_, _, rfl⟩ | ⟨_, rfl⟩ | ⟨_, _, _, rfl⟩
  · exact h
  · exact trivial
  · exact trivial
  · exact trivial

theorem TaskSound.withFlush {now : Instant} {stage : FlushStage α}
    (hf : t.flushing? = some (now, stage)) (stage' : FlushStage α) :
    TaskSound s₀ log id (t.withFlush stage') := by
  rcases flusher_cases hf with ⟨_, rfl⟩ | ⟨_, _, rfl⟩ <;> exact trivial

end Parts

/-! ### The whole invariant -/

section Sound

variable [Payload α] [DurableStore σ] [TruthfulStore σ] {s₀ s : System α ε σ}
  {log more : List (Happening α ε)} {id cache : Nat}

theorem Sound.extend (h : Sound s₀ s log)
    (htasks : ∀ id t, s.task? id = some t → .called id ∈ more → TaskSound s₀ (log ++ more) id t)
    (honce : ∀ id cache q now cache' q' now', .asked id cache q now ∈ more →
      .asked id cache' q' now' ∈ log ++ more → cache' = cache ∧ q' = q ∧ now' = now)
    (hanswers : ∀ before id a after, more = before ++ .answered id (.ok a) :: after →
      Answered s₀ (log ++ before) id a) :
    Sound s₀ s (log ++ more) where
  caches cache c hc := (h.caches cache c hc).mono more
  store key v hv := by
    obtain ⟨e, horigin, hkey, henc⟩ := h.store key v hv
    exact ⟨e, horigin.mono more, hkey, henc⟩
  tasks id t ht := by
    by_cases hcalled : .called id ∈ more
    · exact htasks id t ht hcalled
    · exact (h.tasks id t ht).mono hcalled
  unwritten id t ht w hw := (h.unwritten id t ht w hw).mono more
  once id cache q now cache' q' now' hmem hmem' := by
    rcases List.mem_append.mp hmem with hold | hnew
    · rcases List.mem_append.mp hmem' with hold' | hnew'
      · exact h.once id cache q now cache' q' now' hold hold'
      · obtain ⟨rfl, rfl, rfl⟩ := honce id cache' q' now' cache q now hnew' hmem
        exact ⟨rfl, rfl, rfl⟩
    · exact honce id cache q now cache' q' now' hnew hmem'
  answers before id a after heq := by
    rcases List.append_eq_append_iff.mp heq with ⟨rest, rfl, hrest⟩ | ⟨rest, rfl, hrest⟩
    · exact hanswers rest id a after hrest
    · cases rest with
      | nil =>
        have hnew := hanswers [] id a after hrest.symm
        rw [List.append_nil, List.append_nil] at hnew
        exact hnew
      | cons x rest =>
        rw [List.cons_append, List.cons.injEq] at hrest
        obtain ⟨rfl, -⟩ := hrest
        exact h.answers before id a rest rfl

/-- What is neither a call, a question nor an answer makes no difference. -/
theorem Sound.quiet (h : Sound s₀ s log) (hcalled : ∀ id, .called id ∉ more)
    (hasked : ∀ id cache q now, .asked id cache q now ∉ more)
    (hanswered : ∀ id answer, .answered id answer ∉ more) : Sound s₀ s (log ++ more) := by
  refine h.extend (fun id t _ hmem => absurd hmem (hcalled id)) ?_ ?_
  · intro id cache q now cache' q' now' hmem _
    exact absurd hmem (hasked id cache q now)
  · rintro before id a after rfl
    exact absurd (List.mem_append_right before List.mem_cons_self) (hanswered id (.ok a))

theorem Sound.answered {answer : Except ε (Lookup α)} (h : Sound s₀ s log)
    (hanswer : ∀ a, answer = .ok a → Answered s₀ log id a) :
    Sound s₀ s (log ++ [.answered id answer]) := by
  refine h.extend ?_ ?_ ?_
  · intro id' t _ hmem
    cases List.mem_singleton.mp hmem
  · intro id' cache q now cache' q' now' hmem _
    cases List.mem_singleton.mp hmem
  · intro before id' a after heq
    rcases List.append_eq_singleton_iff.mp heq.symm with ⟨rfl, hx⟩ | ⟨-, hx⟩
    · rw [List.cons.injEq, Happening.answered.injEq] at hx
      obtain ⟨⟨rfl, ha⟩, -⟩ := hx
      rw [List.append_nil]
      exact hanswer a ha.symm
    · simp at hx

theorem Sound.called (h : Sound s₀ s log)
    (ht : ∀ t, s.task? id = some t → TaskSound s₀ (log ++ [.called id]) id t) :
    Sound s₀ s (log ++ [.called id]) := by
  refine h.extend ?_ ?_ ?_
  · intro id' t ht' hmem
    cases List.mem_singleton.mp hmem
    exact ht t ht'
  · intro id' cache q now cache' q' now' hmem _
    cases List.mem_singleton.mp hmem
  · intro before id' a after heq
    rcases List.append_eq_singleton_iff.mp heq.symm with ⟨-, hx⟩ | ⟨-, hx⟩ <;> cases hx

/-- A number that has not been used may be asked for. -/
theorem Sound.asked (h : Sound s₀ s log) (hfresh : ∀ x ∈ log, x.id < id) (cache : Nat)
    (q : LogicalQuery) (now : Instant) : Sound s₀ s (log ++ [.asked id cache q now]) := by
  refine h.extend ?_ ?_ ?_
  · intro id' t _ hmem
    cases List.mem_singleton.mp hmem
  · intro id' cache₁ q₁ now₁ cache₂ q₂ now₂ hmem hmem'
    cases List.mem_singleton.mp hmem
    rcases List.mem_append.mp hmem' with hold | hnew
    · exact absurd (hfresh _ hold) (Nat.lt_irrefl _)
    · cases List.mem_singleton.mp hnew
      exact ⟨rfl, rfl, rfl⟩
  · intro before id' a after heq
    rcases List.append_eq_singleton_iff.mp heq.symm with ⟨-, hx⟩ | ⟨-, hx⟩ <;> cases hx

/-- What was asked for under a number is the one thing that was. -/
theorem Sound.answered_of_justified (h : Sound s₀ s log) {q : LogicalQuery} {now : Instant}
    {c : TieredCache α} {a : Lookup α} (hasked : .asked id cache q now ∈ log)
    (hc : s₀.cache? cache = some c) (ha : Justified s₀ log id cache c (c.keyFor q) now a) :
    Answered s₀ log id a := by
  refine ⟨cache, q, now, c, fun cache' q' now' => ⟨fun hmem => ?_, ?_⟩, hc, ha⟩
  · exact h.once id cache q now cache' q' now' hasked hmem
  · rintro ⟨rfl, rfl, rfl⟩
    exact hasked

/-! ### Changes of the parts -/

theorem Sound.setTask (h : Sound s₀ s log) {t : Task α ε} (ht : TaskSound s₀ log id t)
    (hw : ∀ w ∈ t.unwritten, Origin s₀ log w.entry) : Sound s₀ (s.setTask id t) log where
  caches := h.caches
  store := h.store
  tasks id' t' ht' := by
    rw [task?_setTask] at ht'
    split at ht'
    · next heq =>
      cases ht'
      rw [← heq]
      exact ht
    · exact h.tasks id' t' ht'
  unwritten id' t' ht' := by
    rw [task?_setTask] at ht'
    split at ht'
    · cases ht'
      exact hw
    · exact h.unwritten id' t' ht'
  once := h.once
  answers := h.answers

theorem Sound.setCache (h : Sound s₀ s log) {c : TieredCache α}
    (hc : CacheSound s₀ log cache c) : Sound s₀ (s.setCache cache c) log where
  caches cache' c' hc' := by
    rw [cache?_setCache] at hc'
    split at hc'
    · next heq =>
      obtain ⟨_, -, rfl⟩ := Option.map_eq_some_iff.mp hc'
      rw [← heq]
      exact hc
    · exact h.caches cache' c' hc'
  store := h.store
  tasks := h.tasks
  unwritten := h.unwritten
  once := h.once
  answers := h.answers

theorem Sound.setStore (h : Sound s₀ s log) {store : σ}
    (hstore : ∀ key v, TruthfulStore.Keeps store key v → TruthfulStore.Keeps s.store key v ∨
      ∃ e, Origin s₀ log e ∧ e.key = key ∧ e.encode? = some v) :
    Sound s₀ ({ s with store } : System α ε σ) log where
  caches := h.caches
  store key v hv := by
    rcases hstore key v hv with hkept | hput
    · exact h.store key v hkept
    · exact hput
  tasks := h.tasks
  unwritten := h.unwritten
  once := h.once
  answers := h.answers

/-- Systems of the same caches, store and tasks are equally sound. -/
theorem Sound.congr {s' : System α ε σ} (h : Sound s₀ s log) (hstore : s'.store = s.store)
    (hcaches : ∀ cache, s'.cache? cache = s.cache? cache)
    (htasks : ∀ id, s'.task? id = s.task? id) : Sound s₀ s' log where
  caches cache c hc := h.caches cache c (hcaches cache ▸ hc)
  store := hstore ▸ h.store
  tasks id t ht := h.tasks id t (htasks id ▸ ht)
  unwritten id t ht := h.unwritten id t (htasks id ▸ ht)
  once := h.once
  answers := h.answers

theorem Sound.add (h : Sound s₀ s log) {t : Task α ε} (ht : TaskSound s₀ log s.next t)
    (hw : ∀ w ∈ t.unwritten, Origin s₀ log w.entry) : Sound s₀ (s.add t).2 log :=
  (h.setTask ht hw).congr rfl (fun _ => rfl) fun _ => rfl

end Sound

/-! ## Turns -/

section Codec

variable [Payload α] {s₀ : System α ε σ} {log : List (Happening α ε)}

/-- What a lookup fetched is read back as it was, if it can be read back at all. -/
def Faithful (log : List (Happening α ε)) : Prop :=
  ∀ id cache e, .fetched id cache e ∈ log →
    ∀ bytes e', e.encode? = some bytes → Entry.decode bytes = .ok e' → e' = e

theorem Faithful.eq_of_origin {e e' : Entry α} {bytes : Bytes} (h : Faithful log)
    (horigin : Origin s₀ log e) (henc : e.encode? = some bytes)
    (hdec : Entry.decode bytes = .ok e') : e' = e := by
  obtain ⟨id, cache, q, c, -, -, hfetched, -⟩ := horigin
  exact h id cache e hfetched bytes e' henc hdec

theorem exists_of_ofBytes_found {r : Except StoreError (Option Bytes)} {e : Entry α}
    (h : DurableRead.ofBytes r = .found e) :
    ∃ bytes, r = .ok (some bytes) ∧ Entry.decode bytes = .ok e := by
  rcases r with err | _ | bytes
  · cases h
  · cases h
  · rw [DurableRead.ofBytes] at h
    rcases hdec : (Entry.decode bytes : Except Json.ReadError (Entry α)) with fault | e'
    · rw [hdec] at h
      simp at h
    · rw [hdec] at h
      cases h
      exact ⟨bytes, rfl, hdec⟩

end Codec

section Turns

variable [Payload α] [DurableStore σ] [TruthfulStore σ] {s₀ s s' : System α ε σ}
  {log more : List (Happening α ε)} {id cache : Nat} {t : Task α ε}

/-- A write makes the store keep no more than the entry's own bytes under its own key. -/
theorem keeps_attempt {w : PendingWrite α} {ttl : UInt64} {now : Instant} {store store' : σ}
    {a : Attempt} (hw : w.attempt ttl now store = (a, store')) {key : String} {v : Bytes}
    (h : TruthfulStore.Keeps store' key v) :
    TruthfulStore.Keeps store key v ∨ (w.key = key ∧ w.entry.encode? = some v) := by
  unfold PendingWrite.attempt at hw
  rcases henc : w.entry.encode? with _ | bytes
  · rw [henc] at hw
    obtain ⟨-, rfl⟩ := Prod.mk.inj hw
    exact Or.inl h
  · rw [henc] at hw
    obtain ⟨-, rfl⟩ := Prod.mk.inj hw
    rcases TruthfulStore.keeps_put h with hkept | ⟨rfl, rfl⟩
    · exact Or.inl hkept
    · exact Or.inr ⟨rfl, rfl⟩

/-- The attempt of a write whose entry was fetched. -/
theorem Sound.attempt (h : Sound s₀ s log) {w : PendingWrite α} {ttl : UInt64} {now : Instant}
    {store : σ} {a : Attempt} (hw : w.attempt ttl now s.store = (a, store))
    (horigin : Origin s₀ log w.entry) : Sound s₀ ({ s with store } : System α ε σ) log := by
  refine h.setStore fun key v hv => ?_
  rcases keeps_attempt hw hv with hkept | ⟨hkey, henc⟩
  · exact Or.inl hkept
  · exact Or.inr ⟨w.entry, horigin, hkey, henc⟩

/-- Every step of a task keeps the invariant. -/
theorem Sound.turn (h : Sound s₀ s log) {clock : Instant} (hturn : Turn s clock id t more s')
    (ht : s.task? id = some t) (hcodec : Faithful log) : Sound s₀ s' (log ++ more) := by
  have hsound := h.tasks id t ht
  have hnone : ∀ w ∈ ([] : List (PendingWrite α)), Origin s₀ (log ++ more) w.entry :=
    fun w hw => absurd hw List.not_mem_nil
  cases hturn with
  | idle =>
    rw [List.append_nil]
    exact h
  | @hot cache key now c e hc he hfresh =>
    obtain ⟨q, c₀, hasked, hc₀, hkey, hcalled⟩ := hsound
    have hcache := h.caches cache c hc
    obtain ⟨hekey, horigin⟩ := hcache.hot key e he
    rw [hcache.policy_eq hc₀] at hfresh
    rw [List.append_nil] at hnone ⊢
    have hcounted : CacheSound s₀ log cache { c with counters := c.counters.recordHotHit } :=
      ⟨hcache.start, hcache.hot, hcache.pending⟩
    refine (h.setCache hcounted).setTask ?_ hnone
    refine ⟨q, c₀, hasked, hc₀, hkey, fun a ha => ?_⟩
    cases ha
    exact justified_cached hekey horigin hcalled hfresh
  | @cold cache key now c hc =>
    rw [List.append_nil] at hnone ⊢
    exact (h.setCache (h.caches cache c hc)).setTask hsound hnone
  | @read cache key now r store hget =>
    obtain ⟨q, c₀, hasked, hc₀, hkey, hcalled⟩ := hsound
    rw [List.append_nil] at hnone ⊢
    have hstore : Sound s₀ ({ s with store } : System α ε σ) log := by
      refine h.setStore fun k v hv => Or.inl ?_
      rw [← show (DurableStore.get s.store clock key).2 = store from congrArg Prod.snd hget] at hv
      exact TruthfulStore.keeps_get hv
    refine hstore.setTask ⟨q, c₀, hasked, hc₀, hkey, hcalled, fun e he => ?_⟩ hnone
    obtain ⟨bytes, hr, hdec⟩ := exists_of_ofBytes_found he
    have hkept : TruthfulStore.Keeps s.store key bytes := by
      refine @TruthfulStore.keeps_of_get σ _ _ s.store clock key bytes ?_
      rw [congrArg Prod.fst hget]
      exact hr
    obtain ⟨e₀, horigin, hkey₀, henc⟩ := h.store key bytes hkept
    rw [hcodec.eq_of_origin horigin henc hdec]
    exact ⟨hkey₀, horigin⟩
  | @durable cache key now c e hc hfresh =>
    obtain ⟨q, c₀, hasked, hc₀, hkey, hcalled, hfound⟩ := hsound
    obtain ⟨hekey, horigin⟩ := hfound e rfl
    have hcache := h.caches cache c hc
    rw [hcache.policy_eq hc₀] at hfresh
    rw [List.append_nil] at hnone ⊢
    refine (h.setCache (hcache.hotSet horigin _)).setTask ?_ hnone
    refine ⟨q, c₀, hasked, hc₀, hkey, fun a ha => ?_⟩
    cases ha
    exact justified_cached hekey horigin hcalled hfresh
  | @call cache key now r c counters hc =>
    obtain ⟨q, c₀, hasked, hc₀, hkey, -⟩ := hsound
    have hcache := h.caches cache c hc
    have hcounted : CacheSound s₀ log cache { c with counters } :=
      ⟨hcache.start, hcache.hot, hcache.pending⟩
    have hnext : Sound s₀ ((s.setCache cache { c with counters }).setTask id
        (.lookup cache key now .fetching)) log := by
      refine (h.setCache hcounted).setTask ?_ fun w hw => absurd hw List.not_mem_nil
      exact ⟨q, c₀, hasked, hc₀, hkey, trivial⟩
    refine hnext.called fun t' ht' => ?_
    rw [task?_setTask, if_pos rfl] at ht'
    cases ht'
    exact ⟨q, c₀, List.mem_append_left _ hasked, hc₀, hkey, trivial⟩
  | @fetched cache key now c payload hc =>
    obtain ⟨q, c₀, hasked, hc₀, hkey, -⟩ := hsound
    have hmore : Sound s₀ s (log ++ [.fetched id cache ⟨key, payload, now⟩]) :=
      h.quiet (by simp) (by simp) (by simp)
    have hmem : .fetched id cache ⟨key, payload, now⟩ ∈
        log ++ [Happening.fetched (ε := ε) id cache ⟨key, payload, now⟩] :=
      List.mem_append_right log List.mem_cons_self
    have horigin : Origin s₀ (log ++ [.fetched id cache ⟨key, payload, now⟩])
        ⟨key, payload, now⟩ :=
      ⟨id, cache, q, c₀, List.mem_append_left _ hasked, hc₀, hmem, hkey⟩
    have hcache := (hmore.caches cache c hc).storeFetched horigin
    refine (hmore.setCache hcache).setTask ?_ hnone
    refine ⟨q, c₀, List.mem_append_left _ hasked, hc₀, hkey, fun a ha => ?_⟩
    cases ha
    exact justified_fetched hmem
  | @refused cache key now err =>
    obtain ⟨q, c₀, hasked, hc₀, hkey, -⟩ := hsound
    rw [List.append_nil] at hnone ⊢
    refine h.setTask ⟨q, c₀, hasked, hc₀, hkey, fun a ha => ?_⟩ hnone
    simp at ha
  | @rest cache key now answer =>
    obtain ⟨q, c₀, hasked, hc₀, rfl, hanswer⟩ := hsound
    have hmore := h.answered fun a ha => h.answered_of_justified hasked hc₀ (hanswer a ha)
    exact hmore.setTask trivial hnone
  | @hand cache key now answer c hc =>
    have hmore : Sound s₀ s (log ++ [.took id cache]) := h.quiet (by simp) (by simp) (by simp)
    have hcache := hmore.caches cache c hc
    have hstage := hmore.tasks id _ ht
    exact (hmore.setCache (hcache.takeAll now)).setTask hstage hcache.batch
  | @begin cache key now answer c hc =>
    have hmore : Sound s₀ s (log ++ [.took id cache]) := h.quiet (by simp) (by simp) (by simp)
    have hcache := hmore.caches cache c hc
    have hstage := hmore.tasks id _ ht
    exact (hmore.setCache (hcache.takeAll now)).setTask hstage hcache.batch
  | @detach key now answer cache batch =>
    obtain ⟨q, c₀, hasked, hc₀, rfl, hanswer⟩ := hsound
    have hhanded : Sound s₀ s (log ++ [.handed id s.next]) :=
      h.quiet (by simp) (by simp) (by simp)
    have hasked' := List.mem_append_left [Happening.handed (α := α) (ε := ε) id s.next] hasked
    have hmore := hhanded.answered fun a ha =>
      hhanded.answered_of_justified hasked' hc₀ ((hanswer a ha).mono (by simp))
    rw [List.append_assoc] at hmore
    have hbatch := hmore.unwritten id _ ht
    have hadd := hmore.add (t := .pass cache (.ofBatch batch)) trivial hbatch
    refine Sound.setTask ?_ trivial hnone
    exact hadd.congr rfl
      (fun cache' => cache?_modify_inFlight _ cache cache' (· ++ [s.next])) fun _ => rfl
  | @write _ cache c w rest r a store hp hcache hc hw ha =>
    have hmore : Sound s₀ s (log ++ [.attempted id w]) := h.quiet (by simp) (by simp) (by simp)
    have hrest := hmore.unwritten id t ht
    rw [unwritten_of_pass? hp] at hrest
    have hstore := hmore.attempt hw (hrest w List.mem_cons_self)
    refine hstore.setTask ((hmore.tasks id t ht).withPass hp _) fun v hv => ?_
    rw [unwritten_of_pass? (pass?_withPass hp _)] at hv
    exact hrest v (List.mem_cons_of_mem w hv)
  | @broke _ cache c w rest r store hp hcache hc hw =>
    have hmore : Sound s₀ s (log ++ [.broke id]) := h.quiet (by simp) (by simp) (by simp)
    have hrest := hmore.unwritten id t ht
    rw [unwritten_of_pass? hp] at hrest
    exact (hmore.attempt hw (hrest w List.mem_cons_self)).setTask trivial hnone
  | @wrote _ cache c r hp hcache hc =>
    have hsettled : CacheSound s₀ log cache (c.settle r) := by
      have hsc := h.caches cache c hc
      exact ⟨hsc.start, hsc.hot, hsc.pending⟩
    rcases writer_cases hp with
      ⟨cache', key, now, answer, rfl⟩ | ⟨_, _, rfl⟩ | ⟨_, rfl⟩ | ⟨_, _, _, rfl⟩
    · obtain ⟨q, c₀, hasked, hc₀, rfl, hanswer⟩ := hsound
      have hmore := h.answered fun a ha => h.answered_of_justified hasked hc₀ (hanswer a ha)
      exact (hmore.setCache (hsettled.mono _)).setTask trivial hnone
    -- only the lookup answers
    all_goals
      show Sound s₀ _ (log ++ [])
      rw [List.append_nil]
      exact (h.setCache hsettled).setTask trivial fun w hw => absurd hw List.not_mem_nil
  | wake =>
    rw [List.append_nil] at hnone ⊢
    exact h.setTask trivial hnone
  | @takeOver _ now cache slot hf hcache hslot =>
    have hmore : Sound s₀ s (log ++ [.tookOver id slot.inFlight]) :=
      h.quiet (by simp) (by simp) (by simp)
    have hslots : Sound s₀ (s.setSlot cache { slot with inFlight := [] })
        (log ++ [.tookOver id slot.inFlight]) :=
      hmore.congr rfl (fun cache' => cache?_setSlot s cache cache' hslot []) fun _ => rfl
    refine hslots.setTask (.withFlush hf _) ?_
    rw [unwritten_withFlush hf]
    exact hnone
  | @wait _ now passes hf =>
    rw [List.append_nil] at hnone ⊢
    refine h.setTask (.withFlush hf _) ?_
    rw [unwritten_withFlush hf]
    exact hnone
  | @join _ now passes hf hover =>
    rw [List.append_nil] at hnone ⊢
    refine h.setTask (.withFlush hf _) ?_
    rw [unwritten_withFlush hf]
    exact hnone
  | @take _ now cache c hf hcache hc =>
    have hmore : Sound s₀ s (log ++ [.took id cache]) := h.quiet (by simp) (by simp) (by simp)
    have hsc := hmore.caches cache c hc
    refine (hmore.setCache (hsc.takeAll now)).setTask (.withFlush hf _) ?_
    rw [unwritten_withFlush hf]
    exact hsc.batch

end Turns

/-! ## Runs -/

section Runs

variable [Payload α] [DurableStore σ] [TruthfulStore σ] {s₀ s s' : System α ε σ}
  {log : List (Happening α ε)}

/-- The cache drops a hot entry. -/
theorem Sound.invalidate (h : Sound s₀ s log) {cache : Nat} {c : TieredCache α}
    (hc : s.cache? cache = some c) (q : LogicalQuery) :
    Sound s₀ (s.setCache cache (c.invalidate q).2) log := by
  have hcache := h.caches cache c hc
  refine h.setCache ⟨hcache.start, fun key e he => ?_, hcache.pending⟩
  have hclear := HotTier.get?_clear c.hot (c.keyFor q) key
  rw [show (c.invalidate q).2.hot = c.hot.clear (c.keyFor q) from rfl, hclear] at he
  split at he
  · simp at he
  · exact hcache.hot key e he

/-- A lookup is started; nothing has used its number. -/
theorem Sound.lookup (h : Sound s₀ s log) (hn : s.Numbered log) {cache : Nat}
    {c : TieredCache α} (hc : s.cache? cache = some c) (q : LogicalQuery) (now : Instant) :
    Sound s₀ (s.add (.lookup cache (c.keyFor q) now .asking)).2
      (log ++ [.asked s.next cache q now]) := by
  have hmore := h.asked hn.log cache q now
  obtain ⟨c₀, hc₀, hspace, -⟩ := (h.caches cache c hc).start
  refine hmore.add ⟨q, c₀, ?_, hc₀, ?_, ?_⟩ fun w hw => absurd hw List.not_mem_nil
  · exact List.mem_append_right log List.mem_cons_self
  · unfold TieredCache.keyFor
    rw [hspace]
  · intro hcalled
    rcases List.mem_append.mp hcalled with hold | hnew
    · exact absurd (hn.log _ hold) (Nat.lt_irrefl _)
    · cases List.mem_singleton.mp hnew

/-- Every event keeps the invariant, as long as the store, if it changes on its own, comes to
    keep nothing new. -/
theorem Move.sound {ev : Event α ε σ} {more : List (Happening α ε)} (hmove : Move s ev more s')
    (h : Sound s₀ s log) (hn : s.Numbered log) (hcodec : Faithful log)
    (hdisturb : ∀ change, ev = .disturb change →
      ∀ store key v, TruthfulStore.Keeps (change store) key v → TruthfulStore.Keeps store key v) :
    Sound s₀ s' (log ++ more) := by
  have hnone : ∀ w ∈ ([] : List (PendingWrite α)), Origin s₀ log w.entry :=
    fun w hw => absurd hw List.not_mem_nil
  cases hmove with
  | lookup hc => exact h.lookup hn hc _ _
  | step ht hturn => exact h.turn hturn ht hcodec
  | abort =>
    rw [List.append_nil]
    exact abort_induction (P := fun s => Sound s₀ s log) h
      (fun s id t _ _ h => h.setTask trivial fun w hw => absurd hw List.not_mem_nil) _
  | idle => rw [List.append_nil]; exact h
  | flush => rw [List.append_nil]; exact h.add trivial hnone
  | maintain => rw [List.append_nil]; exact h.add trivial hnone
  | invalidate hc => rw [List.append_nil]; exact h.invalidate hc _
  | @disturb change =>
    rw [List.append_nil]
    exact h.setStore fun key v hv => Or.inl (hdisturb change rfl s.store key v hv)

end Runs

end System

end MarketCache
