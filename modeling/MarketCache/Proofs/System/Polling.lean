import MarketCache.Proofs.System.Sequential
import MarketCache.Proofs.Time.Age
import MarketCache.Store.Memory

/-!
# Snapshots only get newer

In a sequential run of a single cache the hot entry of a key is replaced only while it is stale,
by an entry that is fresh or by one that is fetched at that very moment; either was captured
later. So the provider is asked about a key at most once in a polling interval, whatever the
store does, as long as its records are about their own keys and were not captured in a leap
second.

Main definitions:
* `System.hot?`: the hot entry of a key.
* `StoreRead.isProper`: a read that may be promoted.
* `System.Aged`, `System.Spaced`: the invariants.

Results:
* `Turn.hotTurn`: what a step does to the hot tier.
* `Aged.advance`: every event keeps the invariant.
* `Advance.hot_le`, `hot_le_run`: an event, and a run, replace a hot entry by one captured later.
* `Spaced.advance`, `spaced_run`: they keep the fetches of a key apart.
* `captures_rise`: capture times in a run.
* `not_captures_rise_leap`: a record captured in a leap second makes them fall.
-/

namespace MarketCache

variable {α ε σ : Type}

/-- The entry that a read comes to, if it comes to one. -/
def StoreRead.entry? (α : Type) [Payload α] (r : StoreRead) : Option (Entry α) :=
  match DurableRead.ofBytes r.result with
  | .found e => some e
  | _ => none

/-- Whether a read comes to an entry of its own key that was not captured in a leap second, if it
    comes to an entry at all. -/
def StoreRead.isProper (α : Type) [Payload α] (r : StoreRead) : Bool :=
  (r.entry? α).all fun e => e.key = r.key && !e.capturedAt.isLeap

theorem StoreRead.of_isProper [Payload α] {r : StoreRead} {e : Entry α} (h : r.isProper α = true)
    (he : DurableRead.ofBytes r.result = .found e) :
    e.key = r.key ∧ e.capturedAt.isLeap = false := by
  unfold isProper entry? at h
  rw [he] at h
  simpa using h

namespace System

/-- The hot entry of a key in the first cache. -/
def hot? (s : System α ε σ) (key : String) : Option (Entry α) :=
  (s.cache? 0).bind fun c => c.hot.get? key

section HotTier

variable {s : System α ε σ} {c : TieredCache α}

theorem hot?_eq (hc : s.cache? 0 = some c) (key : String) : s.hot? key = c.hot.get? key := by
  rw [hot?, hc]
  rfl

/-- The hot entries after a change of the cache. -/
theorem hot?_setCache (hc : s.cache? 0 = some c) (c' : TieredCache α) (key : String) :
    (s.setCache 0 c').hot? key = c'.hot.get? key := by
  refine hot?_eq ?_ key
  rw [cache?_setCache, if_pos rfl, hc]
  rfl

/-- The hot entries after a change of the cache that leaves the hot tier alone. -/
theorem hot?_setCache_of_hot (hc : s.cache? 0 = some c) {c' : TieredCache α}
    (hhot : c'.hot = c.hot) (key : String) : (s.setCache 0 c').hot? key = s.hot? key := by
  rw [hot?_setCache hc, hot?_eq hc, hhot]

/-- The hot entries after a change of the cache that sets one of them. -/
theorem hot?_setCache_set (hc : s.cache? 0 = some c) {c' : TieredCache α} {e : Entry α}
    (hhot : c'.hot = c.hot.set e) (key : String) :
    (s.setCache 0 c').hot? key = if e.key = key then some e else s.hot? key := by
  rw [hot?_setCache hc, hot?_eq hc, hhot, HotTier.get?_set]

end HotTier

/-! ## What a step does to the hot tier -/

/-- All that a step of a task can do to the hot tier of the first cache. -/
inductive HotTurn (settings : CacheSettings) (s : System α ε σ) (id : Nat) :
    Task α ε → List (Happening α ε) → System α ε σ → Prop where
  | keeps {t more s'} (hsame : ∀ k, s'.hot? k = s.hot? k)
      (hfetched : ∀ k cache e, .fetched k cache e ∉ more) : HotTurn settings s id t more s'
  /-- A durable entry becomes hot. -/
  | promotes {key now e s'} (hfresh : isFresh e.capturedAt settings.pollingIntervalSecs now = true)
      (hhot : ∀ k, s'.hot? k = if e.key = k then some e else s.hot? k) :
      HotTurn settings s id (.lookup 0 key now (.judging (.found e))) [] s'
  /-- What the provider answered becomes hot. -/
  | fetches {key now e s'} (hkey : e.key = key) (hnow : e.capturedAt = now)
      (hhot : ∀ k, s'.hot? k = if e.key = k then some e else s.hot? k) :
      HotTurn settings s id (.lookup 0 key now .fetching) [.fetched id 0 e] s'

section Turns

variable {space : String} {settings : CacheSettings} {s s' : System α ε σ} {clock : Instant}
  {id : Nat} {t : Task α ε} {log more : List (Happening α ε)}

/-- Only an operation changes the hot tier. -/
theorem HotTurn.hot?_eq_of_not_isOperation (h : HotTurn settings s id t more s')
    (ht : t.isOperation = false) (k : String) : s'.hot? k = s.hot? k := by
  cases h with
  | keeps hsame hfetched => exact hsame k
  | promotes hfresh hhot => cases ht
  | fetches hkey hnow hhot => cases ht

variable [Payload α] [DurableStore σ]

/-- A step of a task does one of these things to the hot tier. -/
theorem Turn.hotTurn (hturn : Turn s clock id t more s') (hsolo : s.Solo space settings) :
    HotTurn settings s id t more s' := by
  have hkeep : ∀ {cache c} {c' : TieredCache α} {t'}, s.cache? cache = some c → c'.hot = c.hot →
      ∀ k, ((s.setCache cache c').setTask id t').hot? k = s.hot? k := by
    intro cache c c' t' hc hhot k
    cases hsolo.zero cache c hc
    exact hot?_setCache_of_hot hc hhot k
  cases hturn with
  | hot hc he hfresh => exact HotTurn.keeps (hkeep hc rfl) (by simp)
  | cold hc => exact HotTurn.keeps (hkeep hc rfl) (by simp)
  | @durable cache key now c e hc hfresh =>
    cases hsolo.zero cache c hc
    rw [(hsolo.setUp 0 c hc).isFresh_eq] at hfresh
    exact HotTurn.promotes hfresh (hot?_setCache_set hc rfl)
  | call counters hc => exact HotTurn.keeps (hkeep hc rfl) (by simp)
  | @fetched cache key now c payload hc =>
    cases hsolo.zero cache c hc
    exact HotTurn.fetches rfl rfl (hot?_setCache_set hc rfl)
  | hand hc => exact HotTurn.keeps (hkeep hc rfl) (by simp)
  | begin hc => exact HotTurn.keeps (hkeep hc rfl) (by simp)
  | @detach key now answer cache batch =>
    refine HotTurn.keeps (fun k => ?_) (by simp)
    exact congrArg (Option.bind · fun c : TieredCache α => c.hot.get? k)
      (cache?_modify_inFlight (s.add (.pass cache (.ofBatch batch))).2 cache 0 (· ++ [s.next]))
  | @wrote _ cache c r hp hcache hc =>
    refine HotTurn.keeps (hkeep hc rfl) fun k cache' e hmem => ?_
    split at hmem <;> simp at hmem
  | takeOver hf hcache hslot =>
    refine HotTurn.keeps (fun k => ?_) (by simp)
    exact congrArg (Option.bind · fun c : TieredCache α => c.hot.get? k)
      (cache?_setSlot s _ 0 hslot [])
  | take hf hcache hc => exact HotTurn.keeps (hkeep hc rfl) (by simp)
  | _ => exact HotTurn.keeps (fun k => rfl) (by simp)

end Turns

/-! ## The invariant -/

/-- Whether the hot entries are of their keys and not captured in a leap second, as is an entry
    that a lookup may promote, and the hot entry of a lookup past the hot tier is stale. -/
structure Aged (polling : UInt64) (s : System α ε σ) : Prop where
  hot : ∀ key e, s.hot? key = some e → e.key = key ∧ e.capturedAt.isLeap = false
  stale : ∀ id cache key now stage, s.task? id = some (.lookup cache key now stage) →
    stage.isSeeking = true → ∀ e, s.hot? key = some e → isFresh e.capturedAt polling now = false
  found : ∀ id cache key now e, s.task? id = some (.lookup cache key now (.judging (.found e))) →
    e.key = key ∧ e.capturedAt.isLeap = false

section Aged

variable {space : String} {settings : CacheSettings} {s s' : System α ε σ} {clock : Instant}
  {id : Nat} {t : Task α ε} {log more : List (Happening α ε)} {polling : UInt64}

theorem aged_single (store : σ) (space : String) (settings : CacheSettings)
    (startedAt : Instant) (polling : UInt64) :
    (single store space settings startedAt : System α ε σ).Aged polling where
  hot key e he := by
    rw [hot?_eq (c := .start space settings startedAt) rfl] at he
    unfold TieredCache.start at he
    rw [HotTier.get?_empty] at he
    cases he
  stale id cache key now stage ht := by
    rw [task?_ofSpecs] at ht
    cases ht
  found id cache key now e ht := by
    rw [task?_ofSpecs] at ht
    cases ht

/-- Fewer hot entries, and no tasks but those there were and some that are not past the hot
    tier. -/
theorem Aged.shrink (h : s.Aged polling)
    (hhot : ∀ key e, s'.hot? key = some e → s.hot? key = some e)
    (htasks : ∀ k cache key now stage, s'.task? k = some (.lookup cache key now stage) →
      stage.isSeeking = true → s.task? k = some (.lookup cache key now stage)) :
    s'.Aged polling where
  hot key e he := h.hot key e (hhot key e he)
  stale k cache key now stage hk hseeking e he :=
    h.stale k cache key now stage (htasks k cache key now stage hk hseeking) hseeking e
      (hhot key e he)
  found k cache key now e hk := h.found k cache key now e (htasks k cache key now _ hk rfl)

/-- A new task that is not past the hot tier. -/
theorem Aged.add (h : s.Aged polling) (t : Task α ε)
    (ht : ∀ cache key now stage, t = .lookup cache key now stage → stage.isSeeking = false) :
    (s.add t).2.Aged polling := by
  refine h.shrink (fun _ _ he => he) fun k cache key now stage hk hseeking => ?_
  have hset : (s.setTask s.next t).task? k = some (.lookup cache key now stage) := hk
  rw [task?_setTask] at hset
  split at hset
  · cases (ht cache key now stage (Option.some.inj hset)).symm.trans hseeking
  · exact hset

variable [Payload α] [DurableStore σ]

/-- The hot tier and its entry for the lookup that takes a step, if it is seeking then. -/
theorem Aged.own (h : s.Aged settings.pollingIntervalSecs) (hsolo : s.Solo space settings)
    (hturn : Turn s clock id t more s') (ht : s.task? id = some t)
    (hreason : ∀ t', s'.task? id = some t' → s.Reason t t') {cache : Nat} {key : String}
    {now : Instant} {stage : LookupStage α ε}
    (hid : s'.task? id = some (.lookup cache key now stage)) (hseeking : stage.isSeeking = true) :
    (∀ k, s'.hot? k = s.hot? k) ∧ ∀ e, s.hot? key = some e →
      isFresh e.capturedAt settings.pollingIntervalSecs now = false := by
  obtain ⟨stage₀, rfl, honward⟩ := hturn.onward ht hid
  cases hsolo.owner id cache key now stage₀ ht
  cases honward with
  | stays => exact ⟨fun _ => rfl, h.stale id 0 key now stage hid hseeking⟩
  | @cold c hc =>
    refine ⟨hot?_setCache_of_hot hc rfl, fun e he => ?_⟩
    rw [hot?_eq hc] at he
    exact (hsolo.setUp 0 c hc).isFresh_eq e now ▸ hreason _ hid c e hc he
  | read store hget => exact ⟨fun _ => rfl, h.stale id 0 key now .reading ht rfl⟩
  | @call r c counters hc =>
    exact ⟨hot?_setCache_of_hot hc rfl, h.stale id 0 key now (.judging r) ht rfl⟩
  | settles hanswered => cases hanswered.symm.trans hseeking

/-- A durable entry that a lookup is about to judge after a step. -/
theorem Aged.own_found (h : s.Aged polling) (hsolo : s.Solo space settings)
    (hturn : Turn s clock id t more s') (ht : s.task? id = some t)
    {outcome : Option (Except ε α)}
    (hread : ∀ r, s.read? (.step clock outcome id) = some r → r.isProper α = true) {cache : Nat}
    {key : String} {now : Instant} {e : Entry α}
    (hid : s'.task? id = some (.lookup cache key now (.judging (.found e)))) :
    e.key = key ∧ e.capturedAt.isLeap = false := by
  obtain ⟨stage₀, rfl, honward⟩ := hturn.onward ht hid
  rcases honward.judging_cases with rfl | ⟨rfl, hfound⟩
  · exact h.found id cache key now e ht
  · obtain ⟨c, hc⟩ := hsolo.here
    cases hsolo.owner id cache _ _ _ ht
    exact StoreRead.of_isProper (hread _ (read?_of_task? ht hc clock outcome)) hfound

/-- Every step of a task keeps the invariant, as long as reads are proper. -/
theorem Aged.turn (h : s.Aged settings.pollingIntervalSecs) (hsolo : s.Solo space settings)
    (hturn : Turn s clock id t more s') (ht : s.task? id = some t)
    (hreason : ∀ t', s'.task? id = some t' → s.Reason t t') {outcome : Option (Except ε α)}
    (hread : ∀ r, s.read? (.step clock outcome id) = some r → r.isProper α = true)
    (hleap : ∀ cache key now stage, t = .lookup cache key now stage → now.isLeap = false) :
    s'.Aged settings.pollingIntervalSecs := by
  have hhot := hturn.hotTurn hsolo
  refine ⟨fun key e he => ?_, fun k cache key now stage hk hseeking => ?_,
    fun k cache key now e hk => ?_⟩
  · cases hhot with
    | keeps hsame hfetched => exact h.hot key e (hsame key ▸ he)
    | @promotes key' now e' _ hfresh hhot =>
      rw [hhot] at he
      split at he
      · next hkey =>
        cases he
        exact ⟨hkey, (h.found id 0 key' now e ht).2⟩
      · exact h.hot key e he
    | @fetches key' now e' _ hkey' hnow hhot =>
      rw [hhot] at he
      split at he
      · next hkey =>
        cases he
        exact ⟨hkey, hnow ▸ hleap 0 key' now _ rfl⟩
      · exact h.hot key e he
  · by_cases hid : k = id
    · subst hid
      obtain ⟨hsame, hstale⟩ := h.own hsolo hturn ht hreason hk hseeking
      exact fun e he => hstale e (hsame key ▸ he)
    -- another lookup is under way, so the task that takes the step is none
    rcases hturn.task?_cases hk with heq | hold | ⟨_, _, hpass⟩
    · exact absurd heq hid
    · have hnone : t.isOperation = false := by
        by_contra hop
        exact hid (hsolo.alone k id _ t hold rfl ht (Bool.not_eq_false _ ▸ hop))
      intro e he
      rw [hhot.hot?_eq_of_not_isOperation hnone] at he
      exact h.stale k cache key now stage hold hseeking e he
    · cases hpass
  · by_cases hid : k = id
    · subst hid
      exact h.own_found hsolo hturn ht hread hk
    rcases hturn.task?_cases hk with heq | hold | ⟨_, _, hpass⟩
    · exact absurd heq hid
    · exact h.found k cache key now e hold
    · cases hpass

/-- Every event keeps the invariant, as long as reads are proper. -/
theorem Aged.advance (h : s.Aged settings.pollingIntervalSecs) (hsolo : s.Solo space settings)
    (hposed : s.Posed space log) {ev : Event α ε σ} (hadvance : Advance s ev more s')
    (hread : ∀ r, s.read? ev = some r → r.isProper α = true)
    (hleap : ∀ t ∈ times log, t.isLeap = false) : s'.Aged settings.pollingIntervalSecs := by
  cases hadvance with
  | idle => exact h
  | lookup hc hrest => exact h.add _ fun _ _ _ _ heq => by cases heq; rfl
  | flush hrest => exact h.add _ fun _ _ _ _ heq => by cases heq
  | @invalidate cache q c hc hrest =>
    cases hsolo.zero cache c hc
    refine h.shrink (fun key e he => ?_) fun _ _ _ _ _ hk _ => hk
    rw [hot?_setCache hc] at he
    have hclear := HotTier.get?_clear c.hot (c.keyFor q) key
    rw [show (c.invalidate q).2.hot = c.hot.clear (c.keyFor q) from rfl, hclear] at he
    split at he
    · cases he
    · rw [hot?_eq hc]
      exact he
  | step ht hturn hreason =>
    refine h.turn hsolo hturn ht hreason hread fun cache key now stage heq => ?_
    rw [heq] at ht
    exact hleap now (hposed.mem_times ht)
  | disturb => exact h.shrink (fun _ _ he => he) fun _ _ _ _ _ hk _ => hk

end Aged

/-! ## Capture times -/

/-- Whether two fetches of a key, the later one second, are a polling interval apart. -/
def Apart (polling : UInt64) (key : String) (x y : Happening α ε) : Prop :=
  ∀ id cache e id' cache' e', x = .fetched id cache e → y = .fetched id' cache' e' →
    e.key = key → e'.key = key → Duration.ofSeconds polling ≤ e'.capturedAt.since e.capturedAt

/-- Whether the fetches of a key are a polling interval apart, and its hot entry is as new as all
    of them. -/
structure Spaced (polling : UInt64) (key : String) (s : System α ε σ)
    (log : List (Happening α ε)) : Prop where
  hot : ∀ id cache e, .fetched id cache e ∈ log → e.key = key → e.capturedAt.isLeap = false ∧
    ∃ e', s.hot? key = some e' ∧ e.capturedAt ≤ e'.capturedAt
  apart : log.Pairwise (Apart polling key)

/-- Whether a state after what a log tells is that of a single cache which is asked as of no leap
    second, and in which the hot entries have come of age. -/
structure Shielded (space : String) (settings : CacheSettings) (s : System α ε σ)
    (log : List (Happening α ε)) : Prop where
  aged : s.Aged settings.pollingIntervalSecs
  solo : s.Solo space settings
  posed : s.Posed space log
  noLeap : ∀ t ∈ times log, t.isLeap = false

section Captures

variable {space : String} {settings : CacheSettings} {s s' : System α ε σ} {id : Nat}
  {log more : List (Happening α ε)} {ev : Event α ε σ} {key : String}

/-- An entry that is promoted over a hot one was captured later. -/
theorem Shielded.capturedAt_lt (h : s.Shielded space settings log) {cache : Nat} {now : Instant}
    {e e' : Entry α} (ht : s.task? id = some (.lookup cache key now (.judging (.found e'))))
    (hfresh : isFresh e'.capturedAt settings.pollingIntervalSecs now = true)
    (he : s.hot? key = some e) : e.capturedAt < e'.capturedAt :=
  lt_of_isFresh hfresh (h.aged.stale id cache key now _ ht rfl e he)
    (h.noLeap now (h.posed.mem_times ht)) (h.aged.hot key e he).2
    (h.aged.found id cache key now e' ht).2

variable [Payload α] [DurableStore σ]

/-- A lookup that closes after it has judged a durable entry has promoted it: the entry was fresh,
    and it is hot. -/
theorem Turn.promotes {clock : Instant} {cache : Nat} {now : Instant} {e : Entry α}
    {answer : Except ε (Lookup α)}
    (hturn : Turn s clock id (.lookup cache key now (.judging (.found e))) more s')
    (ht : s.task? id = some (.lookup cache key now (.judging (.found e))))
    (ht' : s'.task? id = some (.lookup cache key now (.closing answer))) :
    ∃ c c', s.cache? cache = some c ∧ c.policy.isFresh e now = true ∧
      s'.cache? cache = some c' ∧ c'.hot = c.hot.set e := by
  cases hturn with
  | idle =>
    rw [ht] at ht'
    cases ht'
  | @durable _ _ _ c _ hc hfresh =>
    refine ⟨c, { c with hot := c.hot.set e, counters := c.counters.recordDurableHit }, hc, hfresh,
      ?_, rfl⟩
    rw [cache?_setTask, cache?_setCache, if_pos rfl, hc]
    rfl
  | call counters hc =>
    rw [task?_setTask, if_pos rfl] at ht'
    cases ht'
  | write store hp hcache hc hw ha => cases hp
  | broke store hp hcache hc hw => cases hp
  | wrote hp hcache hc => cases hp
  | takeOver hf hcache hslot => cases hf
  | wait hf => cases hf
  | join hf hover => cases hf
  | take hf hcache hc => cases hf

/-- Of a single cache, the same by its settings. -/
theorem Advance.promotes {clock : Instant} {outcome : Option (Except ε α)}
    (hadvance : Advance s (.step clock outcome id) more s') (hsolo : s.Solo space settings)
    {now : Instant} {e : Entry α} {answer : Except ε (Lookup α)}
    (ht : s.task? id = some (.lookup 0 key now (.judging (.found e))))
    (ht' : s'.task? id = some (.lookup 0 key now (.closing answer))) :
    isFresh e.capturedAt settings.pollingIntervalSecs now = true ∧
      ∀ k, s'.hot? k = if e.key = k then some e else s.hot? k := by
  cases hadvance with
  | idle =>
    rw [ht] at ht'
    cases ht'
  | step ht₀ hturn hreason =>
    rw [ht] at ht₀
    cases ht₀
    obtain ⟨c, c', hc, hfresh, hc', hhot⟩ := hturn.promotes ht ht'
    rw [(hsolo.setUp 0 c hc).isFresh_eq] at hfresh
    refine ⟨hfresh, fun k => ?_⟩
    rw [hot?_eq hc', hot?_eq hc, hhot, HotTier.get?_set]

/-- What a lookup fetched becomes the hot entry, a polling interval after the one it replaces. -/
theorem Advance.fetched (hadvance : Advance s ev more s') (h : s.Shielded space settings log)
    {cache : Nat} {e : Entry α} (he : .fetched id cache e ∈ more) :
    more = [.fetched id cache e] ∧ s'.hot? e.key = some e ∧
      ∀ e₀, s.hot? e.key = some e₀ →
        Duration.ofSeconds settings.pollingIntervalSecs ≤ e.capturedAt.since e₀.capturedAt := by
  cases hadvance with
  | @step clock outcome id' t _ _ ht hturn hreason =>
    cases hturn.hotTurn h.solo with
    | keeps hsame hfetched => exact absurd he (hfetched id cache e)
    | promotes hfresh hhot => cases he
    | @fetches key now e' _ hkey hnow hhot =>
      cases List.mem_singleton.mp he
      subst hkey hnow
      refine ⟨rfl, (hhot e.key).trans (if_pos rfl), fun e₀ he₀ => ?_⟩
      exact isFresh_eq_false_iff.mp (h.aged.stale id 0 e.key e.capturedAt _ ht rfl e₀ he₀)
  | _ => simp at he

/-- An event replaces the hot entry of a key only by one captured later, unless it drops it. -/
theorem Advance.hot_le (hadvance : Advance s ev more s') (h : s.Shielded space settings log)
    (hkept : ∀ q, ev = .invalidate 0 q → q.key space ≠ key) {e : Entry α}
    (he : s.hot? key = some e) :
    ∃ e', s'.hot? key = some e' ∧ e.capturedAt ≤ e'.capturedAt := by
  have hsame : s'.hot? key = s.hot? key →
      ∃ e', s'.hot? key = some e' ∧ e.capturedAt ≤ e'.capturedAt := fun heq =>
    ⟨e, heq.trans he, Instant.le_refl _⟩
  cases hadvance with
  | @invalidate cache q c hc hrest =>
    cases h.solo.zero cache c hc
    refine hsame ?_
    have hne : c.keyFor q ≠ key := by
      rw [TieredCache.keyFor, (h.solo.setUp 0 c hc).space]
      exact hkept q rfl
    rw [hot?_setCache hc, hot?_eq hc]
    exact (HotTier.get?_clear c.hot (c.keyFor q) key).trans (if_neg hne)
  | @step clock outcome id t _ _ ht hturn hreason =>
    cases hturn.hotTurn h.solo with
    | keeps hkeeps hfetched => exact hsame (hkeeps key)
    | @promotes key' now e' _ hfresh hhot =>
      by_cases hkey : e'.key = key
      · refine ⟨e', (hhot key).trans (if_pos hkey), ?_⟩
        have hkey' : key' = key := (h.aged.found id 0 key' now e' ht).1.symm.trans hkey
        have hlt := h.capturedAt_lt (hkey' ▸ ht) hfresh he
        rw [Instant.lt_def] at hlt
        rw [Instant.le_def]
        omega
      · exact hsame ((hhot key).trans (if_neg hkey))
    | @fetches key' now e' _ hkey' hnow hhot =>
      by_cases hkey : e'.key = key
      · refine ⟨e', (hhot key).trans (if_pos hkey), ?_⟩
        have hkey'' : key' = key := hkey'.symm.trans hkey
        subst hnow hkey''
        exact le_of_isFresh_eq_false (h.aged.stale id 0 key' e'.capturedAt _ ht rfl e he)
          (h.aged.hot key' e he).2 (h.noLeap _ (h.posed.mem_times ht))
      · exact hsame ((hhot key).trans (if_neg hkey))
  | _ => exact hsame rfl

/-- An event keeps the fetches of a key apart. -/
theorem Spaced.advance {recent : List (Happening α ε)}
    (hspaced : s.Spaced settings.pollingIntervalSecs key recent) (hadvance : Advance s ev more s')
    (h : s.Shielded space settings log) (h' : s'.Aged settings.pollingIntervalSecs)
    (hkept : ∀ q, ev = .invalidate 0 q → q.key space ≠ key) :
    s'.Spaced settings.pollingIntervalSecs key (recent ++ more) := by
  refine ⟨fun id cache e he hkey => ?_, List.pairwise_append.mpr ⟨hspaced.apart, ?_, ?_⟩⟩
  · rcases List.mem_append.mp he with he | he
    · obtain ⟨hnoleap, e₁, he₁, hle⟩ := hspaced.hot id cache e he hkey
      obtain ⟨e₂, he₂, hle'⟩ := hadvance.hot_le h hkept he₁
      exact ⟨hnoleap, e₂, he₂, Instant.le_trans hle hle'⟩
    · obtain ⟨-, hhot, -⟩ := hadvance.fetched h he
      subst hkey
      exact ⟨(h'.hot e.key e hhot).2, e, hhot, Instant.le_refl _⟩
  · -- an event fetches at most once
    by_cases hfetched : ∃ id cache e, .fetched id cache e ∈ more
    · obtain ⟨id, cache, e, he⟩ := hfetched
      rw [(hadvance.fetched h he).1]
      exact List.pairwise_singleton _ _
    · refine List.pairwise_of_forall_mem_list fun x hx y hy id cache e id' cache' e' heq => ?_
      exact absurd ⟨id, cache, e, heq ▸ hx⟩ hfetched
  · rintro x hx y hy id cache e id' cache' e' rfl rfl hkey hkey'
    obtain ⟨hnoleap, e₁, he₁, hle⟩ := hspaced.hot id cache e hx hkey
    obtain ⟨-, hhot, hgap⟩ := hadvance.fetched h hy
    subst hkey'
    have hnoleap' := (h'.hot e'.key e' hhot).2
    have hnoleap₁ := (h.aged.hot e'.key e₁ he₁).2
    have hdistance := hgap e₁ he₁
    rw [Duration.le_def, Instant.nanos_since hnoleap' hnoleap₁] at hdistance
    rw [Duration.le_def, Instant.nanos_since hnoleap' hnoleap]
    rw [Instant.le_iff_nanos_le hnoleap hnoleap₁] at hle
    omega

end Captures

/-! ## Runs -/

section Runs

variable [Payload α] [DurableStore σ] {store : σ} {space : String} {settings : CacheSettings}
  {startedAt : Instant} {s₀ : System α ε σ} {earlier between : List (Event α ε σ)} {key : String}

theorem aged_run {events : List (Event α ε σ)}
    (hstart : s₀ = single store space settings startedAt)
    (hseq : s₀.isSequential events = true)
    (hleap : ∀ t ∈ times (s₀.history events), t.isLeap = false)
    (hreads : ∀ r ∈ s₀.reads events, r.isProper α = true) :
    (s₀.run events).Aged settings.pollingIntervalSecs := by
  subst hstart
  refine sequential_induction (P := fun events =>
    ((single store space settings startedAt).run events).Aged settings.pollingIntervalSecs) hseq
    (aged_single store space settings startedAt _)
    fun before ev after hsplit hbefore hadvance h => ?_
  rw [run_concat]
  refine h.advance (solo_run hbefore) (posed_run hbefore) hadvance (fun r hr => ?_) fun t ht => ?_
  · exact hreads r (mem_reads_of_split hsplit hr)
  · refine hleap t ?_
    rw [hsplit, history_append, times_append]
    exact List.mem_append_left _ ht

/-- What holds of a run holds of each part that it begins with. -/
theorem shielded_part {events part rest : List (Event α ε σ)} (hsplit : events = part ++ rest)
    (hstart : s₀ = single store space settings startedAt)
    (hseq : s₀.isSequential events = true)
    (hleap : ∀ t ∈ times (s₀.history events), t.isLeap = false)
    (hreads : ∀ r ∈ s₀.reads events, r.isProper α = true) :
    (s₀.run part).Shielded space settings (s₀.history part) := by
  rw [hsplit, isSequential_append, Bool.and_eq_true] at hseq
  rw [hsplit, history_append, times_append] at hleap
  rw [hsplit, reads_append] at hreads
  have hleap' : ∀ t ∈ times (s₀.history part), t.isLeap = false := fun t ht =>
    hleap t (List.mem_append_left _ ht)
  have haged := aged_run hstart hseq.1 hleap' fun r hr => hreads r (List.mem_append_left _ hr)
  subst hstart
  exact ⟨haged, solo_run hseq.1, posed_run hseq.1, hleap'⟩

/-- What an event of the second part of a run is, and what holds before and after it. -/
theorem shielded_split {before after : List (Event α ε σ)} {ev : Event α ε σ}
    (hsplit : between = before ++ ev :: after)
    (hstart : s₀ = single store space settings startedAt)
    (hseq : s₀.isSequential (earlier ++ between) = true)
    (hleap : ∀ t ∈ times (s₀.history (earlier ++ between)), t.isLeap = false)
    (hreads : ∀ r ∈ s₀.reads (earlier ++ between), r.isProper α = true) :
    Advance (s₀.run (earlier ++ before)) ev ((s₀.run (earlier ++ before)).news ev)
        (s₀.run (earlier ++ before ++ [ev])) ∧
      (s₀.run (earlier ++ before)).Shielded space settings (s₀.history (earlier ++ before)) ∧
      (s₀.run (earlier ++ before ++ [ev])).Shielded space settings
        (s₀.history (earlier ++ before ++ [ev])) := by
  have hall : earlier ++ between = (earlier ++ before) ++ ev :: after := by
    rw [hsplit, List.append_assoc]
  have hnext : earlier ++ between = (earlier ++ before ++ [ev]) ++ after := by
    rw [hall, List.append_assoc _ [ev], List.singleton_append]
  have hadvance := apply_advance (admits_of_split hseq hall)
  rw [← run_concat] at hadvance
  exact ⟨hadvance, shielded_part hall hstart hseq hleap hreads,
    shielded_part hnext hstart hseq hleap hreads⟩

/-- As long as a key is not invalidated, its hot entry is replaced only by later ones. -/
theorem hot_le_run (hstart : s₀ = single store space settings startedAt)
    (hseq : s₀.isSequential (earlier ++ between) = true)
    (hleap : ∀ t ∈ times (s₀.history (earlier ++ between)), t.isLeap = false)
    (hreads : ∀ r ∈ s₀.reads (earlier ++ between), r.isProper α = true)
    (hkept : ∀ q, .invalidate 0 q ∈ between → q.key space ≠ key) {e : Entry α}
    (he : (s₀.run earlier).hot? key = some e) :
    ∃ e', (s₀.run (earlier ++ between)).hot? key = some e' ∧ e.capturedAt ≤ e'.capturedAt := by
  refine prefix_induction (P := fun part => ∃ e', (s₀.run (earlier ++ part)).hot? key = some e' ∧
    e.capturedAt ≤ e'.capturedAt) ⟨e, by rw [List.append_nil]; exact he, Instant.le_refl _⟩ ?_
  rintro before ev after hsplit ⟨e₁, he₁, hle⟩
  obtain ⟨hadvance, hshielded, -⟩ := shielded_split hsplit hstart hseq hleap hreads
  obtain ⟨e₂, he₂, hle'⟩ := hadvance.hot_le hshielded (fun q heq => hkept q (by simp [hsplit, heq]))
    he₁
  rw [List.append_assoc] at he₂
  exact ⟨e₂, he₂, Instant.le_trans hle hle'⟩

/-- As long as a key is not invalidated, the lookups that fetch it are a polling interval apart. -/
theorem spaced_run (hstart : s₀ = single store space settings startedAt)
    (hseq : s₀.isSequential (earlier ++ between) = true)
    (hleap : ∀ t ∈ times (s₀.history (earlier ++ between)), t.isLeap = false)
    (hreads : ∀ r ∈ s₀.reads (earlier ++ between), r.isProper α = true)
    (hkept : ∀ q, .invalidate 0 q ∈ between → q.key space ≠ key) :
    (s₀.run (earlier ++ between)).Spaced settings.pollingIntervalSecs key
      ((s₀.run earlier).history between) := by
  refine prefix_induction (P := fun part => (s₀.run (earlier ++ part)).Spaced
    settings.pollingIntervalSecs key ((s₀.run earlier).history part))
    ⟨fun _ _ _ he => absurd he List.not_mem_nil, List.Pairwise.nil⟩
    fun before ev after hsplit h => ?_
  obtain ⟨hadvance, hshielded, hshielded'⟩ := shielded_split hsplit hstart hseq hleap hreads
  rw [← List.append_assoc, history_concat, ← run_append]
  exact h.advance hadvance hshielded hshielded'.aged fun q heq => hkept q (by simp [hsplit, heq])

/-- In a sequential run of a single cache, of lookups as of any times but leap seconds, over a
    store whose records are about their own keys and were not captured in leap seconds: as long
    as a key is not invalidated, the capture time of its hot entry never falls, and rises where a
    durable entry takes the place of a hot one. So the lookups that fetch it are a polling
    interval apart. -/
theorem captures_rise (hstart : s₀ = single store space settings startedAt)
    (hseq : s₀.isSequential (earlier ++ between) = true)
    (hleap : ∀ t ∈ times (s₀.history (earlier ++ between)), t.isLeap = false)
    (hreads : ∀ r ∈ s₀.reads (earlier ++ between), r.isProper α = true)
    (hkept : ∀ q, .invalidate 0 q ∈ between → q.key space ≠ key) :
    (∀ e, (s₀.run earlier).hot? key = some e →
      ∃ e', (s₀.run (earlier ++ between)).hot? key = some e' ∧ e.capturedAt ≤ e'.capturedAt) ∧
    (∀ before clock outcome id after now e e',
      between = before ++ .step clock outcome id :: after →
      (s₀.run (earlier ++ before)).hot? key = some e →
      (s₀.run (earlier ++ before)).task? id = some (.lookup 0 key now (.judging (.found e'))) →
      (s₀.run (earlier ++ before ++ [.step clock outcome id])).task? id =
        some (.lookup 0 key now (.closing (.ok (.cached e')))) →
      (s₀.run (earlier ++ before ++ [.step clock outcome id])).hot? key = some e' ∧
        e.capturedAt < e'.capturedAt) ∧
    (∀ id id' e e',
      [.fetched id 0 e, .fetched id' 0 e'].Sublist ((s₀.run earlier).history between) →
      e.key = key → e'.key = key →
      (∃ q, .asked id 0 q e.capturedAt ∈ s₀.history (earlier ++ between)) ∧
        (∃ q, .asked id' 0 q e'.capturedAt ∈ s₀.history (earlier ++ between)) ∧
        Duration.ofSeconds settings.pollingIntervalSecs ≤ e'.capturedAt.since e.capturedAt) := by
  refine ⟨fun e he => hot_le_run hstart hseq hleap hreads hkept he, ?_, ?_⟩
  · intro before clock outcome id after now e e' hsplit he ht ht'
    obtain ⟨hadvance, hshielded, -⟩ := shielded_split hsplit hstart hseq hleap hreads
    obtain ⟨hfresh, hhot⟩ := hadvance.promotes hshielded.solo ht ht'
    have hkey := (hshielded.aged.found id 0 key now e' ht).1
    exact ⟨(hhot key).trans (if_pos hkey), hshielded.capturedAt_lt ht hfresh he⟩
  · intro id id' e e' hsub hkey hkey'
    have hspaced := spaced_run hstart hseq hleap hreads hkept
    have hposed := (shielded_part (List.append_nil _).symm hstart hseq hleap hreads).posed
    have hmem : ∀ x ∈ (s₀.run earlier).history between, x ∈ s₀.history (earlier ++ between) :=
      fun x hx => by
        rw [history_append]
        exact List.mem_append_right _ hx
    obtain ⟨q, hq, -⟩ := hposed.fetched id 0 e (hmem _ (hsub.subset List.mem_cons_self))
    obtain ⟨q', hq', -⟩ := hposed.fetched id' 0 e'
      (hmem _ (hsub.subset (List.mem_cons_of_mem _ List.mem_cons_self)))
    exact ⟨⟨q, hq⟩, ⟨q', hq'⟩, List.pairwise_iff_forall_sublist.mp hspaced.apart hsub
      id 0 e id' 0 e' rfl rfl hkey hkey'⟩

end Runs

/-! ### Two runs -/

/-- A record that another process puts into the store. -/
def foreign (payload : String) (capturedAt : Instant) : Event String Unit MemoryStore :=
  .disturb fun store =>
    store.put capturedAt "n:A" ((Entry.encode? ⟨"n:A", payload, capturedAt⟩).getD []) 86400

/-- An entry is fetched, a newer one of another process is promoted over it, and when that one is
    stale too the provider is asked again. -/
def renewal : List (Event String Unit MemoryStore) :=
  lookupRun (.ofSymbols ["a"]) 0 ⟨100, 0⟩ [none, none, none, some (.ok "v"), none] ++
    [foreign "w" ⟨130, 0⟩] ++
    lookupRun (.ofSymbols ["a"]) 1 ⟨165, 0⟩ [none, none, none, none] ++
    lookupRun (.ofSymbols ["a"]) 2 ⟨200, 0⟩ [none, none, none, some (.ok "x"), none]

/-- The cache of `renewal`. -/
def renewing : System String Unit MemoryStore :=
  single MemoryStore.empty "n" ⟨60, 600, 86400, false⟩ ⟨100, 0⟩

theorem captures_rise_renewal :
    (renewing.run (renewal.take 11)).hot? "n:A" = some ⟨"n:A", "w", ⟨130, 0⟩⟩ ∧
      (⟨100, 0⟩ : Instant) < ⟨130, 0⟩ ∧
      Duration.ofSeconds 60 ≤ Instant.since ⟨200, 0⟩ ⟨100, 0⟩ := by
  have hkept : ∀ q, .invalidate 0 q ∈ renewal → q.key "n" ≠ "n:A" := fun q h => by
    simp [renewal, lookupRun, foreign] at h
  obtain ⟨-, hpromotion, hgap⟩ := captures_rise (rfl : renewing = single _ _ _ _)
    (show renewing.isSequential ([] ++ renewal) = true by decide +kernel) (by decide +kernel)
    (by decide +kernel) hkept
  have hrise := hpromotion (renewal.take 10) ⟨165, 0⟩ none 1 (renewal.drop 11) ⟨165, 0⟩
    ⟨"n:A", "v", ⟨100, 0⟩⟩ ⟨"n:A", "w", ⟨130, 0⟩⟩ rfl (by decide +kernel) (by decide +kernel)
    (by decide +kernel)
  have hapart := hgap 0 2 ⟨"n:A", "v", ⟨100, 0⟩⟩ ⟨"n:A", "x", ⟨200, 0⟩⟩ (by decide +kernel)
    rfl rfl
  exact ⟨hrise.1, hrise.2, hapart.2.2⟩

/-- An entry is fetched in the second after a leap second, and one that another process captured
    within it is promoted when that entry is stale. -/
def leaping : List (Event String Unit MemoryStore) :=
  lookupRun (.ofSymbols ["a"]) 0 ⟨1483228800, 0⟩ [none, none, none, some (.ok "v"), none] ++
    [foreign "w" ⟨1483228799, 1900000000⟩] ++
    lookupRun (.ofSymbols ["a"]) 1 ⟨1483229100, 0⟩ [none, none, none, none]

/-- Records of their own keys are not enough: the distance from a leap second is counted short by
    a second, so the record looks fresh when the entry captured after it does not. -/
theorem not_captures_rise_leap :
    let s₀ : System String Unit MemoryStore :=
      single MemoryStore.empty "n" ⟨300, 600, 86400, false⟩ ⟨1483228800, 0⟩
    s₀.isSequential leaping = true ∧
      (∀ t ∈ times (s₀.history leaping), t.isLeap = false) ∧
      (∀ r ∈ s₀.reads leaping, (r.entry? String).all (·.key = r.key) = true) ∧
      (s₀.run (leaping.take 6)).hot? "n:A" = some ⟨"n:A", "v", ⟨1483228800, 0⟩⟩ ∧
      (s₀.run leaping).hot? "n:A" = some ⟨"n:A", "w", ⟨1483228799, 1900000000⟩⟩ ∧
      ¬ (⟨1483228800, 0⟩ : Instant) ≤ ⟨1483228799, 1900000000⟩ := by
  decide +kernel

end System

end MarketCache
