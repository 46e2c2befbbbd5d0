import MarketCache.Proofs.Store.Exact
import MarketCache.Proofs.System.Provenance
import MarketCache.Proofs.System.Sequential
import MarketCache.Proofs.Time.Age

/-!
# Cached answers are the latest ones

A single cache that writes its passes itself, over a store of its own, answers from its tiers
with the entry that was fetched last for the key. What is hot, what waits and what is being
written is the latest entry of its key. The store may keep an older one, if the write of the
latest was refused or has not been made; but that one was stale when the latest was fetched,
and stays so as time goes on.

Main definitions:
* `System.Outdated`: an entry that is stale from now on.
* `System.Current`: the invariant.

Results:
* `Current.turn`, `Current.advance`: every step and every event keeps the invariant.
* `cached_latest`: what a cached answer is.
-/

namespace MarketCache

namespace System

variable {α ε σ : Type}

/-! ## The invariant -/

/-- Whether an entry is stale as of every time that a lookup may still be asked for. -/
def Outdated (polling : UInt64) (log : List (Happening α ε)) (e : Entry α) : Prop :=
  ∀ t, t.isLeap = false → (∀ u ∈ times log, u ≤ t) → isFresh e.capturedAt polling t = false

/-- Whether what is hot and what waits is the latest of its key. -/
structure CacheCurrent (log : List (Happening α ε)) (c : TieredCache α) : Prop where
  hot : ∀ key e, c.hot.get? key = some e → latest log key = some e
  pending : ∀ key w, c.writeBack.pendingFor? key = some w → latest log key = some w.entry

/-- Whether what can be read back under the keys of a namespace was fetched, and is the latest of
    its key or outdated. -/
def StoreCurrent [Payload α] [DurableStore σ] [TruthfulStore σ] (space : String)
    (polling : UInt64) (log : List (Happening α ε)) (store : σ) : Prop :=
  ∀ q v e, TruthfulStore.Keeps store (LogicalQuery.key q space) v → Entry.decode v = .ok e →
    e.key = q.key space ∧ (∃ id cache, .fetched id cache e ∈ log) ∧
      (latest log e.key = some e ∨ Outdated polling log e)

/-- What holds of a stage of a lookup of a key as of `now`. -/
def StageCurrent [Payload α] [DurableStore σ] [TruthfulStore σ] (polling : UInt64)
    (log : List (Happening α ε)) (store : σ) (key : String) (now : Instant) :
    LookupStage α ε → Prop
  | .judging r =>
    (∀ v, TruthfulStore.Keeps store key v → r = .ofBytes (.ok (some v))) ∧
      ∀ e, r = .found e → e.key = key ∧ (latest log key = some e ∨ Outdated polling log e)
  | .fetching =>
    ∀ v (e : Entry α), TruthfulStore.Keeps store key v → Entry.decode v = .ok e →
      isFresh e.capturedAt polling now = false
  | .closing answer => ∀ a, answer = .ok a → a.fromCache = true →
    ∃ e, latest log key = some e ∧ a = .cached e
  | .writing answer _ => ∀ a, answer = .ok a → a.fromCache = true →
    ∃ e, latest log key = some e ∧ a = .cached e
  | _ => True

/-- What holds of a task: what it has in hand is the latest of its key, and a lookup was the last
    one that was asked for. -/
structure TaskCurrent [Payload α] [DurableStore σ] [TruthfulStore σ] (polling : UInt64)
    (log : List (Happening α ε)) (store : σ) (t : Task α ε) : Prop where
  unwritten : ∀ w ∈ t.unwritten, latest log w.key = some w.entry
  stage : ∀ cache key now stage, t = .lookup cache key now stage →
    StageCurrent polling log store key now stage ∧ ∀ u ∈ times log, u ≤ now

/-- Whether a lookup may answer from a tier. -/
def AnswerCurrent (space : String) (log : List (Happening α ε)) (id : Nat)
    (answer : Except ε (Lookup α)) : Prop :=
  ∀ a, answer = .ok a → a.fromCache = true →
    ∃ q now e, .asked id 0 q now ∈ log ∧ latest log (q.key space) = some e ∧ a = .cached e

/-- Whether all that the cache, the store and the tasks have is the latest of its key, or is
    outdated, and all answers from a tier were the latest. -/
structure Current [Payload α] [DurableStore σ] [TruthfulStore σ] (space : String)
    (polling : UInt64) (s : System α ε σ) (log : List (Happening α ε)) : Prop where
  caches : ∀ cache c, s.cache? cache = some c → CacheCurrent log c
  store : StoreCurrent space polling log s.store
  tasks : ∀ id t, s.task? id = some t → TaskCurrent polling log s.store t
  answers : ∀ before id answer after, log = before ++ .answered id answer :: after →
    AnswerCurrent space before id answer

/-! ## A longer history -/

section History

variable {space : String} {polling : UInt64} {log more : List (Happening α ε)}

theorem Outdated.mono {e : Entry α} (h : Outdated polling log e) (more : List (Happening α ε)) :
    Outdated polling (log ++ more) e := by
  intro t ht hafter
  refine h t ht fun u hu => hafter u ?_
  rw [times_append]
  exact List.mem_append_left _ hu

theorem CacheCurrent.mono {c : TieredCache α} (h : CacheCurrent log c)
    (hmore : ∀ id cache e, .fetched id cache e ∉ more) : CacheCurrent (log ++ more) c where
  hot key e he := by
    rw [latest_append_of_not_fetched hmore]
    exact h.hot key e he
  pending key w hw := by
    rw [latest_append_of_not_fetched hmore]
    exact h.pending key w hw

variable [Payload α] [DurableStore σ] [TruthfulStore σ] {store store' : σ}

theorem StoreCurrent.mono (h : StoreCurrent space polling log store)
    (hmore : ∀ id cache e, .fetched id cache e ∉ more) :
    StoreCurrent space polling (log ++ more) store := by
  intro q v e hv hdec
  obtain ⟨hkey, ⟨id, cache, hfetched⟩, hcurrent⟩ := h q v e hv hdec
  refine ⟨hkey, ⟨id, cache, List.mem_append_left more hfetched⟩, ?_⟩
  rw [latest_append_of_not_fetched hmore]
  exact hcurrent.imp_right fun hold => hold.mono more

/-- A store that keeps no more in the namespace. -/
theorem StoreCurrent.shrink (h : StoreCurrent space polling log store)
    (hkept : ∀ q v, TruthfulStore.Keeps store' (LogicalQuery.key q space) v →
      TruthfulStore.Keeps store (q.key space) v) : StoreCurrent space polling log store' :=
  fun q v e hv hdec => h q v e (hkept q v hv) hdec

theorem StageCurrent.mono {key : String} {now : Instant} {stage : LookupStage α ε}
    (h : StageCurrent polling log store key now stage)
    (hmore : ∀ id cache e, .fetched id cache e ∉ more) :
    StageCurrent polling (log ++ more) store key now stage := by
  cases stage with
  | judging r =>
    refine ⟨h.1, fun e he => ?_⟩
    rw [latest_append_of_not_fetched hmore]
    exact ⟨(h.2 e he).1, (h.2 e he).2.imp_right fun hold => hold.mono more⟩
  | fetching => exact h
  | closing answer =>
    intro a ha hcached
    rw [latest_append_of_not_fetched hmore]
    exact h a ha hcached
  | writing answer p =>
    intro a ha hcached
    rw [latest_append_of_not_fetched hmore]
    exact h a ha hcached
  | _ => exact trivial

/-- A stage as the store keeps no more under the key. -/
theorem StageCurrent.shrink {key : String} {now : Instant} {stage : LookupStage α ε}
    (h : StageCurrent polling log store key now stage)
    (hkept : ∀ v, TruthfulStore.Keeps store' key v → TruthfulStore.Keeps store key v) :
    StageCurrent polling log store' key now stage := by
  cases stage with
  | judging r => exact ⟨fun v hv => h.1 v (hkept v hv), h.2⟩
  | fetching => exact fun v e hv hdec => h v e (hkept v hv) hdec
  | closing answer => exact h
  | writing answer p => exact h
  | _ => exact trivial

/-- Nothing is asked of a task that is no operation and does not write. -/
theorem taskCurrent_of_not_isOperation {t : Task α ε} (hop : t.isOperation = false)
    (hdetached : t.isDetached = false) : TaskCurrent polling log store t where
  unwritten w hw := by
    rw [unwritten_of_not_isOperation hop hdetached] at hw
    exact absurd hw List.not_mem_nil
  stage cache key now stage heq := by
    rw [heq] at hop
    cases hop

theorem TaskCurrent.mono {t : Task α ε} (h : TaskCurrent polling log store t)
    (hmore : ∀ id cache e, .fetched id cache e ∉ more) (htimes : times more = []) :
    TaskCurrent polling (log ++ more) store t where
  unwritten w hw := by
    rw [latest_append_of_not_fetched hmore]
    exact h.unwritten w hw
  stage cache key now stage heq := by
    obtain ⟨hstage, hlast⟩ := h.stage cache key now stage heq
    rw [times_append, htimes, List.append_nil]
    exact ⟨hstage.mono hmore, hlast⟩

/-- A lookup at another stage, as the store may have changed. -/
theorem TaskCurrent.lookup {cache : Nat} {key : String} {now : Instant}
    {stage stage' : LookupStage α ε}
    (h : TaskCurrent polling log store (.lookup cache key now stage))
    (hunwritten : ∀ w ∈ (Task.lookup cache key now stage').unwritten,
      latest log w.key = some w.entry)
    (hstage : StageCurrent polling log store' key now stage') :
    TaskCurrent polling log store' (.lookup cache key now stage') where
  unwritten := hunwritten
  stage cache' key' now' stage'' heq := by
    cases heq
    exact ⟨hstage, (h.stage cache key now stage rfl).2⟩

/-- A task that has gone on with its pass, as the store may have changed. -/
theorem TaskCurrent.withPass {t : Task α ε} {p p' : Pass α} (h : TaskCurrent polling log store t)
    (hp : t.pass? = some p) (hrest : ∀ w ∈ p'.rest, latest log w.key = some w.entry) :
    TaskCurrent polling log store' (t.withPass p') := by
  refine ⟨fun w hw => ?_, fun cache key now stage heq => ?_⟩
  · rw [unwritten_of_pass? (pass?_withPass hp p')] at hw
    exact hrest w hw
  · rcases writer_cases hp with ⟨_, _, _, _, rfl⟩ | ⟨_, _, rfl⟩ | ⟨_, rfl⟩ | ⟨_, _, _, rfl⟩
    · cases heq
      exact h.stage _ _ _ _ rfl
    all_goals cases heq

theorem TaskCurrent.afterPass {t : Task α ε} {p : Pass α} (hp : t.pass? = some p)
    (r : FlushReport) : TaskCurrent polling log store (t.afterPass r) := by
  refine ⟨fun w hw => ?_, fun _ _ _ _ heq => absurd heq (ne_lookup_afterPass hp _ _ _ _ _)⟩
  rcases writer_cases hp with ⟨_, _, _, _, rfl⟩ | ⟨_, _, rfl⟩ | ⟨_, rfl⟩ | ⟨_, _, _, rfl⟩ <;>
    exact absurd hw List.not_mem_nil

theorem TaskCurrent.withFlush {t : Task α ε} {now : Instant} {stage stage' : FlushStage α}
    (hf : t.flushing? = some (now, stage))
    (hrest : ∀ w ∈ stage'.unwritten, latest log w.key = some w.entry) :
    TaskCurrent polling log store (t.withFlush stage') :=
  ⟨unwritten_withFlush hf stage' ▸ hrest,
    fun _ _ _ _ heq => absurd heq (ne_lookup_withFlush hf _ _ _ _ _)⟩

end History

/-! ## Changes of the parts -/

section Parts

variable {space : String} {settings : CacheSettings} {polling : UInt64} {s s₁ : System α ε σ}
  {log more : List (Happening α ε)} {id cache : Nat} {t : Task α ε} {c : TieredCache α}

/-- A cache whose hot tier and whose waiting writes are no others. -/
theorem CacheCurrent.congr (h : CacheCurrent log c) (c' : TieredCache α) (hhot : c'.hot = c.hot)
    (hpending : ∀ key, c'.writeBack.pendingFor? key = c.writeBack.pendingFor? key) :
    CacheCurrent log c' where
  hot key e he := h.hot key e (hhot ▸ he)
  pending key w hw := h.pending key w (hpending key ▸ hw)

theorem CacheCurrent.takeAll (h : CacheCurrent log c) (now : Instant) :
    CacheCurrent log (c.takeAll now).2 where
  hot := h.hot
  pending key w hw := by
    have hnone := WriteBack.pendingFor?_takeAll c.writeBack now key
    rw [show (c.takeAll now).2.writeBack = (c.writeBack.takeAll now).2 from rfl, hnone] at hw
    cases hw

theorem CacheCurrent.batch (h : CacheCurrent log c) :
    ∀ w ∈ c.writeBack.batch, latest log w.key = some w.entry := by
  intro w hw
  obtain ⟨key, hkey⟩ := WriteBack.exists_of_mem_batch hw
  have hlatest := h.pending key w hkey
  rw [← (exists_of_latest hlatest).1] at hlatest
  exact hlatest

/-- The latest entry of its key becomes hot. -/
theorem CacheCurrent.promote (h : CacheCurrent log c) {e : Entry α}
    (he : latest log e.key = some e) (counters : CacheStats) :
    CacheCurrent log { c with hot := c.hot.set e, counters } where
  hot key e' he' := by
    rw [HotTier.get?_set] at he'
    split at he'
    · next hkey =>
      cases he'
      exact hkey ▸ he
    · exact h.hot key e' he'
  pending := h.pending

/-- What was just fetched is the latest of its key, hot and waiting. -/
theorem CacheCurrent.fetched (h : CacheCurrent log c) (id cache : Nat) (e : Entry α) :
    CacheCurrent (log ++ [.fetched id cache e]) (c.storeFetched e) where
  hot key e' he' := by
    have hset : (c.hot.set e).get? key = some e' := he'
    rw [HotTier.get?_set] at hset
    rw [latest_concat_fetched]
    split at hset
    · next hkey =>
      rw [if_pos hkey]
      exact hset
    · next hkey =>
      rw [if_neg hkey]
      exact h.hot key e' hset
  pending key w hw := by
    have hrecord : (c.writeBack.record e e.capturedAt).pendingFor? key = some w := hw
    rw [WriteBack.pendingFor?_record] at hrecord
    rw [latest_concat_fetched]
    split at hrecord
    · next hkey =>
      cases hrecord
      rw [if_pos hkey]
    · next hkey =>
      rw [if_neg hkey]
      exact h.pending key w hrecord

/-- The caches of a system in which one has changed. -/
theorem caches_setCache (h : ∀ cache c, s.cache? cache = some c → CacheCurrent log c)
    {c' : TieredCache α} (hc' : CacheCurrent log c') :
    ∀ k c, (s.setCache cache c').cache? k = some c → CacheCurrent log c := by
  intro k c₁ hc₁
  rw [cache?_setCache] at hc₁
  split at hc₁
  · obtain ⟨_, -, rfl⟩ := Option.map_eq_some_iff.mp hc₁
    exact hc'
  · exact h k c₁ hc₁

/-- The answers in a longer history. -/
theorem answers_append
    (h : ∀ before id answer after, log = before ++ .answered id answer :: after →
      AnswerCurrent space before id answer)
    (hmore : ∀ before id answer after, more = before ++ .answered id answer :: after →
      AnswerCurrent space (log ++ before) id answer) :
    ∀ before id answer after, log ++ more = before ++ .answered id answer :: after →
      AnswerCurrent space before id answer := by
  intro before id answer after heq
  rcases List.append_eq_append_iff.mp heq with ⟨rest, rfl, hrest⟩ | ⟨rest, rfl, hrest⟩
  · exact hmore rest id answer after hrest
  · cases rest with
    | nil =>
      have hnew := hmore [] id answer after hrest.symm
      rw [List.append_nil, List.append_nil] at hnew
      exact hnew
    | cons x rest =>
      rw [List.cons_append, List.cons.injEq] at hrest
      obtain ⟨rfl, -⟩ := hrest
      exact h before id answer rest rfl

theorem answers_singleton {answer : Except ε (Lookup α)} (h : AnswerCurrent space log id answer) :
    ∀ before k answer' after,
      [Happening.answered id answer] = before ++ .answered k answer' :: after →
      AnswerCurrent space (log ++ before) k answer' := by
  intro before k answer' after heq
  rcases List.append_eq_singleton_iff.mp heq.symm with ⟨rfl, hx⟩ | ⟨-, hx⟩
  · cases hx
    rw [List.append_nil]
    exact h
  · cases hx

/-- What answers nothing makes no difference to the answers. -/
theorem answers_quiet (hmore : ∀ id answer, .answered id answer ∉ more) :
    ∀ before id answer after, more = before ++ .answered id answer :: after →
      AnswerCurrent space (log ++ before) id answer := by
  rintro before id answer after rfl
  exact absurd (List.mem_append_right before List.mem_cons_self) (hmore id answer)

/-- An answer from a tier that a lookup closes with. -/
theorem answerCurrent_of_stage (hposed : s.Posed space log) (hsolo : s.Solo space settings)
    {key : String} {now : Instant} {stage : LookupStage α ε} {answer : Except ε (Lookup α)}
    (ht : s.task? id = some (.lookup cache key now stage))
    (h : ∀ a, answer = .ok a → a.fromCache = true → ∃ e, latest log key = some e ∧ a = .cached e) :
    AnswerCurrent space log id answer := by
  intro a ha hcached
  obtain ⟨e, he, rfl⟩ := h a ha hcached
  obtain ⟨q, hasked, rfl⟩ := hposed.tasks id cache key now stage ht
  cases hsolo.owner id cache _ _ _ ht
  exact ⟨q, now, e, hasked, he, rfl⟩

variable [Payload α] [DurableStore σ] [TruthfulStore σ]

/-- The one operation under way goes on. -/
theorem Current.goOn (h : s.Current space polling log) {t' : Task α ε}
    (hlone : s.Lone id) (htasks : ∀ k, s₁.task? k = s.task? k)
    (hcaches : ∀ cache c, s₁.cache? cache = some c → CacheCurrent (log ++ more) c)
    (hstore : StoreCurrent space polling (log ++ more) s₁.store)
    (hown : TaskCurrent polling (log ++ more) s₁.store t')
    (hanswers : ∀ before k answer after, more = before ++ .answered k answer :: after →
      AnswerCurrent space (log ++ before) k answer) :
    (s₁.setTask id t').Current space polling (log ++ more) where
  caches := hcaches
  store := hstore
  tasks k t₁ hk := by
    rw [task?_setTask] at hk
    split at hk
    · cases hk
      exact hown
    · next hne =>
      obtain ⟨hop, hdetached⟩ := hlone k t₁ (htasks k ▸ hk) (Ne.symm hne)
      exact taskCurrent_of_not_isOperation hop hdetached
  answers := answers_append h.answers hanswers

/-- A store with the attempt of a write that is the latest of its key. -/
theorem StoreCurrent.attempt {store store' : σ} (h : StoreCurrent space polling log store)
    (hcodec : Faithful log) {w : PendingWrite α} {ttl : UInt64} {now : Instant} {a : Attempt}
    (hw : w.attempt ttl now store = (a, store')) (hlatest : latest log w.key = some w.entry) :
    StoreCurrent space polling log store' := by
  intro q v e hv hdec
  rcases keeps_attempt hw hv with hkept | ⟨hkey, henc⟩
  · exact h q v e hkept hdec
  · obtain ⟨-, k, cache, hfetched⟩ := exists_of_latest hlatest
    rw [hcodec k cache w.entry hfetched v e henc hdec]
    exact ⟨hkey, ⟨k, cache, hfetched⟩, Or.inl hlatest⟩

/-- A store in which all that can be read back of a key is stale as an entry of it is fetched. -/
theorem StoreCurrent.fetched {store : σ} (h : StoreCurrent space polling log store)
    (hposed : s.Posed space log) (hleap : ∀ t ∈ times log, t.isLeap = false) {e : Entry α}
    (hasked : e.capturedAt ∈ times log)
    (hstale : ∀ v (e' : Entry α), TruthfulStore.Keeps store e.key v → Entry.decode v = .ok e' →
      isFresh e'.capturedAt polling e.capturedAt = false) :
    StoreCurrent space polling (log ++ [.fetched id cache e]) store := by
  intro q v e' hv hdec
  obtain ⟨hkey, ⟨k, cache', hfetched⟩, hcurrent⟩ := h q v e' hv hdec
  refine ⟨hkey, ⟨k, cache', List.mem_append_left _ hfetched⟩, ?_⟩
  rw [latest_concat_fetched]
  by_cases hsame : e.key = e'.key
  · -- the one that was there is outdated from now on
    right
    intro t ht hafter
    obtain ⟨q', hasked', -⟩ := hposed.fetched k cache' e' hfetched
    have hstale' := hstale v e' (by rw [hsame, hkey]; exact hv) hdec
    refine isFresh_eq_false_of_le hstale' (hafter _ ?_) (hleap _ (mem_times_of_asked hasked'))
      (hleap _ hasked) ht
    rw [times_append]
    exact List.mem_append_left _ hasked
  · rw [if_neg hsame]
    exact hcurrent.imp_right fun hold => hold.mono _

end Parts

/-! ## Turns -/

section Turns

variable [Payload α] [DurableStore σ] [ExactStore σ] {space : String} {settings : CacheSettings}
  {s s' : System α ε σ} {clock : Instant} {outcome : Option (Except ε α)} {id : Nat}
  {t : Task α ε} {log more : List (Happening α ε)} {polling : UInt64}

/-- What a lookup has come to when it has read the store. -/
theorem Current.judging (h : s.Current space polling log) (hposed : s.Posed space log)
    {cache : Nat} {key : String} {now : Instant} {store : σ}
    {r : Except StoreError (Option Bytes)}
    (ht : s.task? id = some (.lookup cache key now .reading))
    (hget : DurableStore.get s.store clock key = (r, store))
    (hread : (⟨cache, key, r⟩ : StoreRead).isRefused = false) :
    StageCurrent polling log store key now (ε := ε) (.judging (.ofBytes r : DurableRead α)) := by
  have hr : (DurableStore.get s.store clock key).1 = r := congrArg Prod.fst hget
  have hstore : (DurableStore.get s.store clock key).2 = store := congrArg Prod.snd hget
  refine ⟨fun v hv => ?_, fun e he => ?_⟩
  · rcases r with err | bytes
    · cases hread
    · rw [← hstore] at hv
      rw [ExactStore.eq_of_keeps_get hr hv]
  · obtain ⟨bytes, rfl, hdec⟩ := exists_of_ofBytes_found he
    obtain ⟨q, -, rfl⟩ := hposed.tasks id cache key now .reading ht
    obtain ⟨hkey, -, hcurrent⟩ := h.store q bytes e (TruthfulStore.keeps_of_get hr) hdec
    exact ⟨hkey, hkey ▸ hcurrent⟩

/-- A fresh entry that a lookup has read is not outdated: it is the latest of its key. -/
theorem Current.latest_of_isFresh (h : s.Current space settings.pollingIntervalSecs log)
    (hsolo : s.Solo space settings) (hposed : s.Posed space log)
    (hleap : ∀ t ∈ times log, t.isLeap = false) {cache : Nat} {key : String} {now : Instant}
    {c : TieredCache α} {e : Entry α} (hc : s.cache? cache = some c)
    (ht : s.task? id = some (.lookup cache key now (.judging (.found e))))
    (hfresh : c.policy.isFresh e now = true) : e.key = key ∧ latest log key = some e := by
  obtain ⟨⟨-, hfound⟩, hlast⟩ := (h.tasks id _ ht).stage cache key now _ rfl
  obtain ⟨hkey, hlatest | houtdated⟩ := hfound e rfl
  · exact ⟨hkey, hlatest⟩
  · rw [(hsolo.setUp cache c hc).isFresh_eq,
      houtdated now (hleap now (hposed.mem_times ht)) hlast] at hfresh
    cases hfresh

/-- All that the store keeps of a key is stale when a lookup asks the provider about it. -/
theorem Current.stale_of_missed (h : s.Current space settings.pollingIntervalSecs log)
    (hsolo : s.Solo space settings) {cache : Nat} {key : String} {now : Instant}
    {c : TieredCache α} {r : DurableRead α} (hc : s.cache? cache = some c)
    (ht : s.task? id = some (.lookup cache key now (.judging r)))
    (hmissed : ∀ e, r = .found e → c.policy.isFresh e now = false) :
    StageCurrent settings.pollingIntervalSecs log s.store key now
      (.fetching : LookupStage α ε) := by
  obtain ⟨⟨hkept, -⟩, -⟩ := (h.tasks id _ ht).stage cache key now _ rfl
  intro v e hv hdec
  have hr : r = .found e := by
    rw [hkept v hv]
    simp only [DurableRead.ofBytes, hdec]
  rw [← (hsolo.setUp cache c hc).isFresh_eq]
  exact hmissed e hr

/-- The step at which a lookup keeps what the provider answered. -/
theorem Current.fetched (h : s.Current space settings.pollingIntervalSecs log)
    (hsolo : s.Solo space settings) (hposed : s.Posed space log) {cache : Nat}
    {c : TieredCache α} {e : Entry α} (hlone : s.Lone id)
    (hleap : ∀ t ∈ times log, t.isLeap = false) (hc : s.cache? cache = some c)
    (ht : s.task? id = some (.lookup cache e.key e.capturedAt .fetching)) :
    ((s.setCache cache (c.storeFetched e)).setTask id
      (.lookup cache e.key e.capturedAt (.closing (.ok (.fetched e))))).Current space
        settings.pollingIntervalSecs (log ++ [.fetched id cache e]) := by
  obtain ⟨hstage, hlast⟩ := (h.tasks id _ ht).stage cache e.key e.capturedAt .fetching rfl
  refine h.goOn hlone (fun _ => rfl) (fun k c₁ hc₁ => ?_)
    (h.store.fetched hposed hleap (hposed.mem_times ht) hstage) ⟨?_, ?_⟩ (answers_quiet (by simp))
  · rw [cache?_setCache] at hc₁
    split at hc₁
    · obtain ⟨_, -, rfl⟩ := Option.map_eq_some_iff.mp hc₁
      exact (h.caches cache c hc).fetched id cache e
    · -- there is no other cache
      next hne => exact absurd ((hsolo.zero cache c hc).trans (hsolo.zero k c₁ hc₁).symm) hne
  · exact fun w hw => absurd hw List.not_mem_nil
  · intro cache' key' now' stage' heq
    cases heq
    refine ⟨fun a ha hcached => ?_, fun u hu => ?_⟩
    · cases ha
      cases hcached
    · rw [times_append] at hu
      exact hlast u ((List.mem_append.mp hu).resolve_right List.not_mem_nil)

/-- Every step of a task keeps the invariant, as long as no read is refused and no lookup is asked
    for in a leap second. -/
theorem Current.turn (h : s.Current space settings.pollingIntervalSecs log)
    (hsolo : s.Solo space settings) (hposed : s.Posed space log)
    (hinline : settings.backgroundFlush = false) (hturn : Turn s clock id t more s')
    (ht : s.task? id = some t) (hreason : ∀ t', s'.task? id = some t' → s.Reason t t')
    (hread : ∀ r, s.read? (.step clock outcome id) = some r → r.isRefused = false)
    (hcodec : Faithful log) (hleap : ∀ t ∈ times log, t.isLeap = false) :
    s'.Current space settings.pollingIntervalSecs (log ++ more) := by
  by_cases hop : t.isOperation = true
  swap
  · obtain ⟨rfl, rfl⟩ := hturn.eq_of_not_isOperation (Bool.not_eq_true _ ▸ hop)
      (hsolo.attached hinline id t ht)
    rw [List.append_nil]
    exact h
  have hlone := hsolo.lone hinline ht hop
  by_cases hfetched : ∃ k cache e, .fetched k cache e ∈ more
  · obtain ⟨k, cache, e, he⟩ := hfetched
    obtain ⟨rfl, c, hc, rfl, rfl, rfl⟩ := hturn.exists_of_fetched he
    exact h.fetched hsolo hposed hlone hleap hc ht
  have hquiet : ∀ k cache e, .fetched k cache e ∉ more := fun k cache e he =>
    hfetched ⟨k, cache, e, he⟩
  have hown := (h.tasks id t ht).mono hquiet hturn.times_eq_nil
  have hcaches : ∀ cache c, s.cache? cache = some c → CacheCurrent (log ++ more) c :=
    fun cache c hc => (h.caches cache c hc).mono hquiet
  have hstore := h.store.mono hquiet
  have hnone : ∀ w ∈ ([] : List (PendingWrite α)), latest (log ++ more) w.key = some w.entry :=
    fun w hw => absurd hw List.not_mem_nil
  cases hturn with
  | idle =>
    rw [List.append_nil]
    exact h
  | @hot cache key now c e hc he hfresh =>
    have hcache := (hcaches cache c hc).congr { c with counters := c.counters.recordHotHit } rfl
      fun _ => rfl
    refine h.goOn hlone (fun _ => rfl) (caches_setCache hcaches hcache) hstore
      (hown.lookup hnone fun a ha hcached => ?_) (answers_quiet (by simp))
    cases ha
    exact ⟨e, hcache.hot key e he, rfl⟩
  | @cold cache key now c hc =>
    exact h.goOn hlone (fun _ => rfl) (caches_setCache hcaches (hcaches cache c hc)) hstore
      (hown.lookup hnone trivial) (answers_quiet (by simp))
  | @read cache key now r store hget =>
    obtain ⟨c, hc⟩ := hsolo.here
    cases hsolo.owner id cache _ _ _ ht
    have hrefused := hread _ (read?_of_task? ht hc clock outcome)
    rw [show (DurableStore.get s.store clock key).1 = r from congrArg Prod.fst hget] at hrefused
    refine h.goOn hlone (fun _ => rfl) hcaches (hstore.shrink fun q v hv => ?_)
      (hown.lookup hnone ((h.judging hposed ht hget hrefused).mono hquiet))
      (answers_quiet (by simp))
    rw [← show (DurableStore.get s.store clock key).2 = store from congrArg Prod.snd hget] at hv
    exact TruthfulStore.keeps_get hv
  | @durable cache key now c e hc hfresh =>
    obtain ⟨rfl, hlatest⟩ := h.latest_of_isFresh hsolo hposed hleap hc ht hfresh
    rw [← latest_append_of_not_fetched hquiet] at hlatest
    have hcache := (hcaches cache c hc).promote hlatest c.counters.recordDurableHit
    refine h.goOn hlone (fun _ => rfl) (caches_setCache hcaches hcache) hstore
      (hown.lookup hnone fun a ha hcached => ?_) (answers_quiet (by simp))
    cases ha
    exact ⟨e, hlatest, rfl⟩
  | @call cache key now r c counters hc =>
    have hcache := (hcaches cache c hc).congr { c with counters } rfl fun _ => rfl
    have hmissed : ∀ c e, s.cache? cache = some c → r = .found e →
        c.policy.isFresh e now = false :=
      hreason (.lookup cache key now .fetching) (by rw [task?_setTask, if_pos rfl])
    have hstale := h.stale_of_missed hsolo hc ht fun e => hmissed c e hc
    exact h.goOn hlone (fun _ => rfl) (caches_setCache hcaches hcache) hstore
      (hown.lookup hnone (hstale.mono hquiet)) (answers_quiet (by simp))
  | fetched payload hc => exact absurd List.mem_cons_self (hquiet _ _ _)
  | refused err =>
    refine h.goOn hlone (fun _ => rfl) hcaches hstore (hown.lookup hnone fun a ha hcached => ?_)
      (answers_quiet (by simp))
    cases ha
  | rest =>
    refine h.goOn hlone (fun _ => rfl) hcaches hstore
      (taskCurrent_of_not_isOperation rfl rfl) (answers_singleton ?_)
    exact answerCurrent_of_stage hposed hsolo ht ((h.tasks id _ ht).stage _ _ _ _ rfl).1
  | @hand cache key now answer c hc =>
    -- only a cache with passes in the background hands its batch out
    have hbackground : ∀ c, s.cache? cache = some c → c.backgroundFlush = true :=
      hreason (.lookup cache key now (.detaching answer c.writeBack.batch))
        (by rw [task?_setTask, if_pos rfl])
    have hdetaching := hbackground c hc
    rw [(hsolo.setUp cache c hc).background, hinline] at hdetaching
    cases hdetaching
  | @begin cache key now answer c hc =>
    have hcache := hcaches cache c hc
    exact h.goOn hlone (fun _ => rfl) (caches_setCache hcaches (hcache.takeAll now)) hstore
      (hown.lookup hcache.batch (hown.stage cache key now _ rfl).1) (answers_quiet (by simp))
  | detach cache batch =>
    have hattached := hsolo.attached hinline id _ ht
    cases hattached
  | @write _ cache c w rest r a store hp hcache hc hw ha =>
    have hbatch := (h.tasks id t ht).unwritten
    rw [unwritten_of_pass? hp] at hbatch
    refine h.goOn hlone (fun _ => rfl) hcaches
      ((h.store.attempt hcodec hw (hbatch w List.mem_cons_self)).mono hquiet)
      (hown.withPass hp fun v hv => ?_) (answers_quiet (by simp))
    rw [latest_append_of_not_fetched hquiet]
    exact hbatch v (List.mem_cons_of_mem w hv)
  | @broke _ cache c w rest r store hp hcache hc hw =>
    have hbatch := (h.tasks id t ht).unwritten
    rw [unwritten_of_pass? hp] at hbatch
    exact h.goOn hlone (fun _ => rfl) hcaches
      ((h.store.attempt hcodec hw (hbatch w List.mem_cons_self)).mono hquiet)
      (taskCurrent_of_not_isOperation rfl rfl) (answers_quiet (by simp))
  | @wrote _ cache c r hp hcache hc =>
    have hsettled := (hcaches cache c hc).congr (c.settle r) rfl fun _ => rfl
    refine h.goOn hlone (fun _ => rfl) (caches_setCache hcaches hsettled) hstore
      (TaskCurrent.afterPass hp r) ?_
    rcases writer_cases hp with ⟨_, _, _, _, rfl⟩ | ⟨_, _, rfl⟩ | ⟨_, rfl⟩ | ⟨_, _, _, rfl⟩
    · refine answers_singleton ?_
      exact answerCurrent_of_stage hposed hsolo ht ((h.tasks id _ ht).stage _ _ _ _ rfl).1
    -- only the lookup answers
    all_goals exact answers_quiet (by simp [Task.afterPass])
  | wake =>
    exact h.goOn hlone (fun _ => rfl) hcaches hstore
      ⟨hnone, fun _ _ _ _ heq => by cases heq⟩ (answers_quiet (by simp))
  | @takeOver _ now cache slot hf hcache hslot =>
    refine h.goOn hlone (fun _ => rfl) (fun k c hc => ?_) hstore (TaskCurrent.withFlush hf hnone)
      (answers_quiet (by simp))
    rw [cache?_setSlot s cache k hslot []] at hc
    exact hcaches k c hc
  | wait hf =>
    exact h.goOn hlone (fun _ => rfl) hcaches hstore (TaskCurrent.withFlush hf hnone)
      (answers_quiet (by simp))
  | join hf hover =>
    exact h.goOn hlone (fun _ => rfl) hcaches hstore (TaskCurrent.withFlush hf hnone)
      (answers_quiet (by simp))
  | @take _ now cache c hf hcache hc =>
    have hcurrent := hcaches cache c hc
    exact h.goOn hlone (fun _ => rfl) (caches_setCache hcaches (hcurrent.takeAll now)) hstore
      (TaskCurrent.withFlush hf hcurrent.batch) (answers_quiet (by simp))

end Turns

/-! ## Runs -/

section Runs

variable [Payload α] [DurableStore σ] [ExactStore σ] {space : String} {settings : CacheSettings}
  {startedAt : Instant} {store : σ} {s s' s₀ : System α ε σ} {log more : List (Happening α ε)}
  {polling : UInt64}

/-- A new task, all others being over. -/
theorem Current.add (h : s.Current space polling log) (hsolo : s.Solo space settings)
    (hinline : settings.backgroundFlush = false) (hrest : s.isResting = true) {t : Task α ε}
    (hfetched : ∀ id cache e, .fetched id cache e ∉ more)
    (hanswered : ∀ id answer, .answered id answer ∉ more)
    (ht : TaskCurrent polling (log ++ more) s.store t) :
    (s.add t).2.Current space polling (log ++ more) where
  caches cache c hc := (h.caches cache c hc).mono hfetched
  store := h.store.mono hfetched
  tasks id t' ht' := by
    have hset : (s.setTask s.next t).task? id = some t' := ht'
    rw [task?_setTask] at hset
    split at hset
    · cases hset
      exact ht
    · exact taskCurrent_of_not_isOperation (isResting_iff.mp hrest id t' hset)
        (hsolo.attached hinline id t' hset)
  answers := answers_append h.answers (answers_quiet hanswered)

/-- Every event keeps the invariant, as long as lookups are asked for in the order of their times
    and outside leap seconds, no read is refused, and the store, if it changes on its own, comes
    to keep nothing new in the namespace. -/
theorem Current.advance {ev : Event α ε σ}
    (h : s.Current space settings.pollingIntervalSecs log) (hsolo : s.Solo space settings)
    (hposed : s.Posed space log) (hinline : settings.backgroundFlush = false)
    (hadvance : Advance s ev more s') (hread : ∀ r, s.read? ev = some r → r.isRefused = false)
    (hcodec : Faithful log) (hleap : ∀ t ∈ times log, t.isLeap = false)
    (horder : (times (log ++ more)).Pairwise (· ≤ ·))
    (hdisturb : ∀ change, ev = .disturb change → ∀ store q v,
      TruthfulStore.Keeps (change store) (LogicalQuery.key q space) v →
      TruthfulStore.Keeps store (q.key space) v) :
    s'.Current space settings.pollingIntervalSecs (log ++ more) := by
  cases hadvance with
  | idle =>
    rw [List.append_nil]
    exact h
  | @lookup cache q now c hc hrest =>
    refine h.add hsolo hinline hrest (by simp) (by simp) ⟨fun w hw => ?_, ?_⟩
    · exact absurd hw List.not_mem_nil
    · intro cache' key now' stage heq
      cases heq
      refine ⟨trivial, fun u hu => ?_⟩
      rw [times_append] at horder hu
      rcases List.mem_append.mp hu with hu | hu
      · exact (List.pairwise_append.mp horder).2.2 u hu now List.mem_cons_self
      · rw [List.mem_singleton.mp hu]
        exact Instant.le_refl now
  | flush hrest =>
    exact h.add hsolo hinline hrest (by simp) (by simp)
      ⟨fun w hw => absurd hw List.not_mem_nil, fun _ _ _ _ heq => by cases heq⟩
  | @invalidate cache q c hc hrest =>
    rw [List.append_nil]
    refine ⟨caches_setCache h.caches ⟨fun key e he => ?_, (h.caches cache c hc).pending⟩, h.store,
      h.tasks, h.answers⟩
    have hclear := HotTier.get?_clear c.hot (c.keyFor q) key
    rw [show (c.invalidate q).2.hot = c.hot.clear (c.keyFor q) from rfl, hclear] at he
    split at he
    · cases he
    · exact (h.caches cache c hc).hot key e he
  | step ht hturn hreason => exact h.turn hsolo hposed hinline hturn ht hreason hread hcodec hleap
  | @disturb change =>
    rw [List.append_nil]
    have hkept := hdisturb change rfl s.store
    refine ⟨h.caches, h.store.shrink hkept, fun id t ht => ?_, h.answers⟩
    refine ⟨(h.tasks id t ht).unwritten, fun cache key now stage heq => ?_⟩
    obtain ⟨hstage, hlast⟩ := (h.tasks id t ht).stage cache key now stage heq
    obtain ⟨q, -, rfl⟩ := hposed.tasks id cache key now stage (heq ▸ ht)
    exact ⟨hstage.shrink (hkept q), hlast⟩

end Runs

/-! ### A run in which writes are refused -/

/-- The cache of `refusing`. -/
def refused : System String Unit (FaultyStore MemoryStore) :=
  single (.ofStore .empty) "n" ⟨60, 0, 86400, false⟩ ⟨100, 0⟩

end System

end MarketCache
