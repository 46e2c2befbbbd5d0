import MarketCache.Proofs.System.Polling

/-!
# Promotions among overlapping lookups

Between the moment when a lookup finds the hot entry of its key stale and the moment when it
promotes what it has read, other lookups take their steps. So an entry that it overwrites is
either the one that it found stale, which was captured earlier, or one that another lookup of
the key has made hot meanwhile, of which nothing is known.

Main definitions:
* `System.Promotes`, `System.Fetches`: the steps of a lookup that make an entry hot.
* `System.HotChange`: all that an event can do to the hot tier of a cache.
* `System.Overtaken`: another lookup has made an entry hot while a lookup sought one.

Results:
* `Move.hotChange`: an event does one of these things to the hot tier.
* `key_of_judging_run`: what a lookup has read is about its key, if the store's records are.
* `stale_run`: a lookup seeks an entry past a stale one, unless it is overtaken.
* `promotes_run`: which entries a promotion overwrites.
* `not_promotes_run`: it overwrites later ones after an overtaking, or by a leap second.
-/

namespace MarketCache

variable {α ε σ : Type}

namespace System

/-! ## Steps that make an entry hot -/

/-- Whether a lookup makes the durable entry hot that it has read. -/
structure Promotes (s s' : System α ε σ) (id cache : Nat) (key : String) (now : Instant)
    (e : Entry α) : Prop where
  before : s.task? id = some (.lookup cache key now (.judging (.found e)))
  after : s'.task? id = some (.lookup cache key now (.closing (.ok (.cached e))))

/-- Whether a lookup makes the entry hot that it has fetched. -/
structure Fetches (s s' : System α ε σ) (id cache : Nat) (key : String) (now : Instant)
    (e : Entry α) : Prop where
  before : s.task? id = some (.lookup cache key now .fetching)
  after : s'.task? id = some (.lookup cache key now (.closing (.ok (.fetched e))))

/-- Whether a lookup of a key as of `now` is past the hot tier and has no answer yet. -/
def Seeks (s : System α ε σ) (id cache : Nat) (key : String) (now : Instant) : Prop :=
  ∃ stage, s.task? id = some (.lookup cache key now stage) ∧ stage.isSeeking = true

/-- All that an event can do to the hot tier of a cache. -/
inductive HotChange (s s' : System α ε σ) (cache : Nat) (c : TieredCache α) :
    Event α ε σ → HotTier α → Prop where
  | keeps {ev} : HotChange s s' cache c ev c.hot
  | clears {q} : HotChange s s' cache c (.invalidate cache q) (c.hot.clear (c.keyFor q))
  | promotes {clock outcome id key now e} (h : Promotes s s' id cache key now e) :
      HotChange s s' cache c (.step clock outcome id) (c.hot.set e)
  | fetches {clock outcome id key now e} (h : Fetches s s' id cache key now e)
      (hkey : e.key = key) : HotChange s s' cache c (.step clock outcome id) (c.hot.set e)

section Changes

variable {s s' : System α ε σ} {clock : Instant} {id cache : Nat} {key : String} {now : Instant}
  {stage : LookupStage α ε} {e : Entry α} {t : Task α ε} {more : List (Happening α ε)}
  {ev : Event α ε σ}

/-- A lookup that makes an entry hot has its answer. -/
theorem Promotes.not_seeks (h : Promotes s s' id cache key now e) (cache' : Nat) (key' : String)
    (now' : Instant) : ¬ s'.Seeks id cache' key' now' := by
  rintro ⟨stage, hid, hseeking⟩
  rw [h.after] at hid
  cases hid
  cases hseeking

theorem Fetches.not_seeks (h : Fetches s s' id cache key now e) (cache' : Nat) (key' : String)
    (now' : Instant) : ¬ s'.Seeks id cache' key' now' := by
  rintro ⟨stage, hid, hseeking⟩
  rw [h.after] at hid
  cases hid
  cases hseeking

/-- The changes of a cache, told from the one cache that an event sets. -/
theorem HotChange.of_setCache {k : Nat} {c₁ c₂ c' : TieredCache α} (hc₁ : s.cache? k = some c₁)
    (hc' : (s.setCache k c₂).cache? cache = some c') (hpolicy : c₂.policy = c₁.policy)
    (hchange : k = cache → HotChange s s' cache c₁ ev c₂.hot) :
    ∃ c, s.cache? cache = some c ∧ c'.policy = c.policy ∧
      HotChange s s' cache c ev c'.hot := by
  rw [cache?_setCache] at hc'
  split at hc'
  · next heq =>
    subst heq
    rw [hc₁] at hc'
    cases hc'
    exact ⟨c₁, hc₁, hpolicy, hchange rfl⟩
  · exact ⟨c', hc', rfl, HotChange.keeps⟩

variable [Payload α] [DurableStore σ]

/-- A step of a task does one of these things to the hot tier of a cache. -/
theorem Turn.hotChange (hturn : Turn s clock id t more s') (ht : s.task? id = some t)
    (outcome : Option (Except ε α)) {c' : TieredCache α} (hc' : s'.cache? cache = some c') :
    ∃ c, s.cache? cache = some c ∧ c'.policy = c.policy ∧
      HotChange s s' cache c (.step clock outcome id) c'.hot := by
  have hkeep : ∀ {k c₁ c₂}, s.cache? k = some c₁ →
      (s.setCache k c₂).cache? cache = some c' → c₂.policy = c₁.policy → c₂.hot = c₁.hot →
      ∃ c, s.cache? cache = some c ∧ c'.policy = c.policy ∧
        HotChange s s' cache c (.step clock outcome id) c'.hot := fun hc₁ hc' hpolicy hhot =>
    HotChange.of_setCache hc₁ hc' hpolicy fun _ => hhot ▸ HotChange.keeps
  have hsame : s'.cache? cache = s.cache? cache →
      ∃ c, s.cache? cache = some c ∧ c'.policy = c.policy ∧
        HotChange s s' cache c (.step clock outcome id) c'.hot := fun heq =>
    ⟨c', heq.symm.trans hc', rfl, HotChange.keeps⟩
  cases hturn with
  | hot hc he hfresh => exact hkeep hc hc' rfl rfl
  | cold hc => exact hkeep hc hc' rfl rfl
  | durable hc hfresh =>
    refine HotChange.of_setCache hc hc' rfl fun heq => ?_
    subst heq
    exact HotChange.promotes ⟨ht, task?_setTask_self _ _ _⟩
  | call counters hc => exact hkeep hc hc' rfl rfl
  | fetched payload hc =>
    refine HotChange.of_setCache hc hc' rfl fun heq => ?_
    subst heq
    exact HotChange.fetches ⟨ht, task?_setTask_self _ _ _⟩ rfl
  | hand hc => exact hkeep hc hc' rfl rfl
  | begin hc => exact hkeep hc hc' rfl rfl
  | @detach key now answer k batch =>
    exact hsame (cache?_modify_inFlight (s.add (.pass k (.ofBatch batch))).2 k cache
      (· ++ [s.next]))
  | wrote hp hcache hc => exact hkeep hc hc' rfl rfl
  | takeOver hf hcache hslot => exact hsame (cache?_setSlot s _ cache hslot [])
  | take hf hcache hc => exact hkeep hc hc' rfl rfl
  | _ => exact hsame rfl

/-- An event does one of these things to the hot tier of a cache. -/
theorem Move.hotChange (hmove : Move s ev more s') {c' : TieredCache α}
    (hc' : s'.cache? cache = some c') :
    ∃ c, s.cache? cache = some c ∧ c'.policy = c.policy ∧
      HotChange s s' cache c ev c'.hot := by
  cases hmove with
  | @invalidate k q c hc =>
    refine HotChange.of_setCache hc hc' rfl fun heq => ?_
    subst heq
    exact HotChange.clears
  | @step clock outcome id t _ _ ht hturn => exact hturn.hotChange ht outcome hc'
  | @abort id =>
    refine ⟨c', ?_, rfl, HotChange.keeps⟩
    rw [cache?, (abort_frame s id).2.1] at hc'
    exact hc'
  | _ => exact ⟨c', hc', rfl, HotChange.keeps⟩

/-! ## Lookups that seek an entry -/

/-- A lookup after an event was there before it, or is new, or has taken a step. -/
theorem Move.lookup_cases (hmove : Move s ev more s')
    (hid : s'.task? id = some (.lookup cache key now stage)) :
    s.task? id = some (.lookup cache key now stage) ∨ stage = .asking ∨
      ∃ clock outcome stage₀, ev = .step clock outcome id ∧
        s.task? id = some (.lookup cache key now stage₀) ∧
        Onward s clock id cache key now stage₀ stage s' := by
  have hadd : ∀ {t : Task α ε}, (s.add t).2.task? id = some (.lookup cache key now stage) →
      s.task? id = some (.lookup cache key now stage) ∨ t = .lookup cache key now stage := by
    intro t h
    rw [task?_add] at h
    split at h
    · exact Or.inr (Option.some.inj h)
    · exact Or.inl h
  cases hmove with
  | lookup hc =>
    rcases hadd hid with hold | hnew
    · exact Or.inl hold
    · cases hnew
      exact Or.inr (Or.inl rfl)
  | flush =>
    rcases hadd hid with hold | hnew
    · exact Or.inl hold
    · cases hnew
  | maintain =>
    rcases hadd hid with hold | hnew
    · exact Or.inl hold
    · cases hnew
  | @step clock outcome id' t _ _ ht hturn =>
    rcases hturn.task?_cases hid with rfl | hold | ⟨_, _, hpass⟩
    · obtain ⟨stage₀, rfl, honward⟩ := hturn.onward ht hid
      exact Or.inr (Or.inr ⟨clock, outcome, stage₀, rfl, ht, honward⟩)
    · exact Or.inl hold
    · cases hpass
  | @abort k =>
    rcases task?_abort_cases s k id with hold | ⟨-, haborted⟩
    · exact Or.inl (hold ▸ hid)
    · rw [haborted] at hid
      cases hid
  | _ => exact Or.inl hid

/-- A lookup that seeks an entry after an event sought one before it, or has just found that the
    hot entry of its key is stale. -/
theorem seeking_before (hid : (s.apply ev).task? id = some (.lookup cache key now stage))
    (hseeking : stage.isSeeking = true) :
    s.Seeks id cache key now ∨ (∃ clock outcome, ev = .step clock outcome id) ∧
      ∀ c e, s.cache? cache = some c → c.hot.get? key = some e →
        c.policy.isFresh e now = false := by
  rcases (apply_move s ev).lookup_cases hid with hold | rfl | ⟨clock, outcome, stage₀, rfl, ht, h⟩
  · exact Or.inl ⟨stage, hold, hseeking⟩
  · cases hseeking
  · have hreason := step_reason ht hid
    generalize s.apply (.step clock outcome id) = s' at h
    cases h with
    | stays => exact Or.inl ⟨stage, ht, hseeking⟩
    | cold hc => exact Or.inr ⟨⟨clock, outcome, rfl⟩, hreason⟩
    | read store hget => exact Or.inl ⟨.reading, ht, rfl⟩
    | @call r c counters hc => exact Or.inl ⟨.judging r, ht, rfl⟩
    | settles hanswered => cases hanswered.symm.trans hseeking

/-- A lookup that judges an entry after an event judged it before, or has just read it. -/
theorem judging_before
    (hid : (s.apply ev).task? id = some (.lookup cache key now (.judging (.found e)))) :
    s.task? id = some (.lookup cache key now (.judging (.found e))) ∨
      ∃ r, s.read? ev = some r ∧ r.key = key ∧ r.entry? α = some e := by
  rcases (apply_move s ev).lookup_cases hid with hold | hnew | ⟨clock, outcome, stage₀, rfl, ht, h⟩
  · exact Or.inl hold
  · cases hnew
  rcases h.judging_cases with rfl | ⟨rfl, hfound⟩
  · exact Or.inl ht
  rcases hc : s.cache? cache with _ | c
  · -- without its cache a lookup takes no step
    have hidle : s.apply (.step clock outcome id) = s := by
      simp only [apply, step, ht, hc]
    exact Or.inl (hidle ▸ hid)
  · refine Or.inr ⟨_, read?_of_task? ht hc clock outcome, rfl, ?_⟩
    unfold StoreRead.entry?
    rw [hfound]

end Changes

/-! ## Runs -/

/-- Whether another lookup of a key has made an entry hot in a run while a lookup of it as of `now`
    sought one. -/
def Overtaken [Payload α] [DurableStore σ] (s₀ : System α ε σ) (events : List (Event α ε σ))
    (id cache : Nat) (key : String) (now : Instant) (e : Entry α) : Prop :=
  ∃ early clock outcome other late now', events = early ++ .step clock outcome other :: late ∧
    other ≠ id ∧ (s₀.run early).Seeks id cache key now ∧
    (Promotes (s₀.run early) ((s₀.run early).step clock outcome other) other cache key now' e ∨
      Fetches (s₀.run early) ((s₀.run early).step clock outcome other) other cache key now' e)

section Runs

variable [Payload α] [DurableStore σ] {s₀ : System α ε σ} {store : σ}
  {specs : List (String × CacheSettings × Instant)} {events : List (Event α ε σ)}
  {id cache : Nat} {key : String} {now : Instant} {e old : Entry α} {c : TieredCache α}

theorem Overtaken.concat (h : s₀.Overtaken events id cache key now e) (ev : Event α ε σ) :
    s₀.Overtaken (events ++ [ev]) id cache key now e := by
  obtain ⟨early, clock, outcome, other, late, now', rfl, h⟩ := h
  exact ⟨early, clock, outcome, other, late ++ [ev], now', List.append_assoc _ _ _, h⟩

/-- What a lookup has read is about its key, if the records that were read were about theirs. -/
theorem key_of_judging_run (hstart : s₀ = ofSpecs store specs)
    (hreads : ∀ r ∈ s₀.reads events, (r.entry? α).all (·.key = r.key) = true) :
    ∀ id cache key now e,
      (s₀.run events).task? id = some (.lookup cache key now (.judging (.found e))) →
      e.key = key := by
  refine prefix_induction (P := fun part => ∀ id cache key now e,
    (s₀.run part).task? id = some (.lookup cache key now (.judging (.found e))) → e.key = key)
    (fun id cache key now e hid => ?_)
    fun before ev after hsplit ih id cache key now e hid => ?_
  · subst hstart
    cases (task?_ofSpecs (ε := ε) store specs id).symm.trans hid
  · rw [run_concat] at hid
    rcases judging_before hid with hold | ⟨r, hr, rfl, he⟩
    · exact ih id cache key now e hold
    · have hown := hreads r (mem_reads_of_split hsplit hr)
      rw [he] at hown
      exact of_decide_eq_true hown

/-- The hot entry of the key of a lookup that seeks one is stale, unless another lookup of the key
    has made it hot meanwhile. -/
theorem stale_run (hstart : s₀ = ofSpecs store specs)
    (hreads : ∀ r ∈ s₀.reads events, (r.entry? α).all (·.key = r.key) = true) :
    ∀ id cache key now c old, (s₀.run events).Seeks id cache key now →
      (s₀.run events).cache? cache = some c → c.hot.get? key = some old →
      c.policy.isFresh old now = false ∨ s₀.Overtaken events id cache key now old := by
  refine prefix_induction (P := fun part => ∀ id cache key now c old,
    (s₀.run part).Seeks id cache key now → (s₀.run part).cache? cache = some c →
    c.hot.get? key = some old →
    c.policy.isFresh old now = false ∨ s₀.Overtaken part id cache key now old)
    (fun id cache key now c old hseeks => ?_)
    fun before ev after hsplit ih id cache key now c' old hseeks hc' hold => ?_
  · obtain ⟨stage, hid, -⟩ := hseeks
    subst hstart
    cases (task?_ofSpecs (ε := ε) store specs id).symm.trans hid
  have hkey := key_of_judging_run hstart fun r hr => hreads r (by
    rw [hsplit, reads_append]
    exact List.mem_append_left _ hr)
  rw [run_concat] at hseeks hc'
  obtain ⟨c, hc, hpolicy, hchange⟩ := (apply_move (s₀.run before) ev).hotChange hc'
  obtain ⟨stage, hid, hseeking⟩ := hseeks
  have hbefore := seeking_before hid hseeking
  -- an entry that was hot before was stale or came by an overtaking then
  have hrest : c.hot.get? key = some old → c'.policy.isFresh old now = false ∨
      s₀.Overtaken (before ++ [ev]) id cache key now old := by
    intro hold
    rw [hpolicy]
    rcases hbefore with hseeks | ⟨-, hstale⟩
    · exact (ih id cache key now c old hseeks hc hold).imp_right (·.concat ev)
    · exact Or.inl (hstale c old hc hold)
  -- one that is made hot now is so by another lookup
  have hmade : ∀ {clock outcome other key' now' e}, ev = .step clock outcome other →
      (Promotes (s₀.run before) ((s₀.run before).apply ev) other cache key' now' e ∨
        Fetches (s₀.run before) ((s₀.run before).apply ev) other cache key' now' e) →
      e.key = key' → (c.hot.set e).get? key = some old → c'.policy.isFresh old now = false ∨
        s₀.Overtaken (before ++ [ev]) id cache key now old := by
    rintro clock outcome other key' now' e rfl hmakes rfl hold
    rw [HotTier.get?_set] at hold
    split at hold
    · next heq =>
      cases hold
      subst heq
      have hne : other ≠ id := fun heq => by
        subst heq
        rcases hmakes with h | h
        · exact h.not_seeks cache old.key now ⟨stage, hid, hseeking⟩
        · exact h.not_seeks cache old.key now ⟨stage, hid, hseeking⟩
      rcases hbefore with hseeks | ⟨⟨_, _, heq⟩, -⟩
      · exact Or.inr ⟨before, clock, outcome, other, [], now', rfl, hne, hseeks, hmakes⟩
      · cases heq
        exact absurd rfl hne
    · exact hrest hold
  generalize hhot : c'.hot = hot at hchange hold
  cases hchange with
  | keeps => exact hrest hold
  | clears =>
    rw [HotTier.get?_clear] at hold
    split at hold
    · cases hold
    · exact hrest hold
  | promotes h => exact hmade rfl (Or.inl h) (hkey _ _ _ _ _ h.before) hold
  | fetches h hown => exact hmade rfl (Or.inr h) hown hold

/-- Whatever lookups and other tasks of any caches do at the same time, over a store whose records
    are about their own keys: a lookup promotes an entry only if it is fresh, and it then takes
    the place of one that was stale, and was captured earlier as far as no leap second is
    involved, unless another lookup of the key has made that one hot in the meantime. -/
theorem promotes_run {clock : Instant} {outcome : Option (Except ε α)}
    (hstart : s₀ = ofSpecs store specs)
    (hreads : ∀ r ∈ s₀.reads events, (r.entry? α).all (·.key = r.key) = true)
    (hpromotes : Promotes (s₀.run events) (s₀.run (events ++ [.step clock outcome id])) id cache
      key now e)
    (hc : (s₀.run events).cache? cache = some c) (hold : c.hot.get? e.key = some old) :
    e.key = key ∧ c.policy.isFresh e now = true ∧
    (∃ c', (s₀.run (events ++ [.step clock outcome id])).cache? cache = some c' ∧
      c'.hot = c.hot.set e) ∧
    (s₀.Overtaken events id cache key now old ∨
      c.policy.isFresh old now = false ∧
        (now.isLeap = false → old.capturedAt.isLeap = false → e.capturedAt.isLeap = false →
          old.capturedAt < e.capturedAt)) := by
  have hkey := key_of_judging_run hstart hreads id cache key now e hpromotes.before
  subst hkey
  rw [run_concat] at hpromotes ⊢
  obtain ⟨c₁, c', hc₁, hfresh, hc', hhot⟩ := (step_turn hpromotes.before).promotes
    hpromotes.before hpromotes.after
  rw [hc] at hc₁
  cases hc₁
  refine ⟨rfl, hfresh, ⟨c', hc', hhot⟩, ?_⟩
  rcases stale_run hstart hreads id cache e.key now c old ⟨_, hpromotes.before, rfl⟩ hc hold with
    hstale | hovertaken
  · exact Or.inr ⟨hstale, fun hnow hleap hleap' => lt_of_isFresh hfresh hstale hnow hleap hleap'⟩
  · exact Or.inl hovertaken

end Runs

/-! ### Some runs -/

/-- A lookup fetches at a time; at another one a lookup reads a record that was put meanwhile. -/
def relayed (fetchedAt capturedAt now : Instant) : List (Event String Unit MemoryStore) :=
  lookupRun (.ofSymbols ["a"]) 0 fetchedAt [none, none, none, some (.ok "v"), none] ++
    foreign "w" capturedAt :: lookupRun (.ofSymbols ["a"]) 1 now [none, none]

/-- No other lookup is under way when the second one reads. -/
theorem not_overtaken_relayed (e : Entry String) :
    ¬ renewing.Overtaken (relayed ⟨100, 0⟩ ⟨130, 0⟩ ⟨165, 0⟩) 1 0 "n:A" ⟨165, 0⟩ e := by
  rintro ⟨early, clock, outcome, other, late, now', hsplit, hne, ⟨stage, hid, hseeking⟩, -⟩
  have hasking : ∀ n < 9, ((renewing.run ((relayed ⟨100, 0⟩ ⟨130, 0⟩ ⟨165, 0⟩).take n)).task? 1).all
      (· = .lookup 0 "n:A" ⟨165, 0⟩ .asking) = true := by
    decide +kernel
  have htake : early = (relayed ⟨100, 0⟩ ⟨130, 0⟩ ⟨165, 0⟩).take early.length := by
    rw [hsplit, List.take_left]
  have hnext : (relayed ⟨100, 0⟩ ⟨130, 0⟩ ⟨165, 0⟩)[early.length]? =
      some (.step clock outcome other) := by
    rw [hsplit, List.getElem?_append_right (Nat.le_refl _), Nat.sub_self]
    rfl
  rcases Nat.lt_or_ge early.length 9 with hlt | hge
  · have hold := hasking _ hlt
    rw [← htake, hid] at hold
    cases of_decide_eq_true hold
    cases hseeking
  · -- past the hot tier the only steps are those of the lookup itself
    have hlen : early.length < 10 := (List.getElem?_eq_some_iff.mp hnext).1
    rw [show early.length = 9 by omega] at hnext
    cases hnext
    exact hne rfl

theorem promotes_run_relayed :
    let events := relayed ⟨100, 0⟩ ⟨130, 0⟩ ⟨165, 0⟩
    (renewing.run events).hot? "n:A" = some ⟨"n:A", "v", ⟨100, 0⟩⟩ ∧
    (renewing.run (events ++ [.step ⟨165, 0⟩ none 1])).hot? "n:A" =
      some ⟨"n:A", "w", ⟨130, 0⟩⟩ ∧ (⟨100, 0⟩ : Instant) < ⟨130, 0⟩ := by
  intro events
  have hhot : (renewing.run events).hot? "n:A" = some ⟨"n:A", "v", ⟨100, 0⟩⟩ := by
    decide +kernel
  have hpromotes : Promotes (renewing.run events)
      (renewing.run (events ++ [.step ⟨165, 0⟩ none 1])) 1 0 "n:A" ⟨165, 0⟩
      ⟨"n:A", "w", ⟨130, 0⟩⟩ := ⟨by decide +kernel, by decide +kernel⟩
  obtain ⟨c, hc, hold⟩ := Option.bind_eq_some_iff.mp hhot
  obtain ⟨-, -, ⟨c', hc', hset⟩, hlater⟩ := promotes_run (rfl : renewing = ofSpecs _ _)
    (by decide +kernel) hpromotes hc hold
  refine ⟨hhot, ?_, (hlater.resolve_left (not_overtaken_relayed _)).2 rfl rfl rfl⟩
  rw [hot?_eq hc', hset]
  exact (HotTier.get?_set _ _ _).trans (if_pos rfl)

/-- Whether, over records of their own keys, a run comes to where a lookup promotes an entry over
    one that was captured later. -/
structure Regresses (s₀ : System String Unit MemoryStore)
    (events : List (Event String Unit MemoryStore)) (id : Nat) (now : Instant)
    (e old : Entry String) : Prop where
  reads : ∀ r ∈ s₀.reads events, (r.entry? String).all (·.key = r.key) = true
  promotes : Promotes (s₀.run events) (s₀.run (events ++ [.step now none id])) id 0 "n:A" now e
  hot : (s₀.run events).hot? e.key = some old
  later : e.capturedAt < old.capturedAt

/-- A lookup reads a record that is fresh as of its time, and for another one, which is a second
    later, it is stale: that one fetches before the first one goes on. -/
def suspended : List (Event String Unit MemoryStore) :=
  foreign "w" ⟨50, 0⟩ :: lookupRun (.ofSymbols ["a"]) 0 ⟨109, 0⟩ [none, none] ++
    lookupRun (.ofSymbols ["a"]) 1 ⟨110, 0⟩ [none, none, none, some (.ok "v"), none]

/-- A promotion overwrites an entry that was captured later if another lookup has made that one
    hot in the meantime, and it may if the record, the hot entry or the lookup itself is as of a
    leap second. -/
theorem not_promotes_run :
    Regresses renewing suspended 0 ⟨109, 0⟩ ⟨"n:A", "w", ⟨50, 0⟩⟩ ⟨"n:A", "v", ⟨110, 0⟩⟩ ∧
    Regresses (single MemoryStore.empty "n" ⟨60, 600, 86400, false⟩ ⟨1435708800, 0⟩)
      (relayed ⟨1435708800, 0⟩ ⟨1435708799, 1900000000⟩ ⟨1435708860, 0⟩) 1 ⟨1435708860, 0⟩
      ⟨"n:A", "w", ⟨1435708799, 1900000000⟩⟩ ⟨"n:A", "v", ⟨1435708800, 0⟩⟩ ∧
    Regresses (single MemoryStore.empty "n" ⟨60, 600, 86400, false⟩ ⟨1435708800, 0⟩)
      (relayed ⟨1435752059, 1000000000⟩ ⟨1435752059, 900000000⟩ ⟨1435752119, 0⟩) 1
      ⟨1435752119, 0⟩ ⟨"n:A", "w", ⟨1435752059, 900000000⟩⟩
      ⟨"n:A", "v", ⟨1435752059, 1000000000⟩⟩ ∧
    Regresses (single MemoryStore.empty "n" ⟨43260, 600, 86400, false⟩ ⟨1435708800, 0⟩)
      (relayed ⟨1435708800, 100000000⟩ ⟨1435708799, 900000000⟩ ⟨1435752059, 1500000000⟩) 1
      ⟨1435752059, 1500000000⟩ ⟨"n:A", "w", ⟨1435708799, 900000000⟩⟩
      ⟨"n:A", "v", ⟨1435708800, 100000000⟩⟩ :=
  ⟨⟨by decide +kernel, ⟨by decide +kernel, by decide +kernel⟩, by decide +kernel, by decide⟩,
    ⟨by decide +kernel, ⟨by decide +kernel, by decide +kernel⟩, by decide +kernel, by decide⟩,
    ⟨by decide +kernel, ⟨by decide +kernel, by decide +kernel⟩, by decide +kernel, by decide⟩,
    ⟨by decide +kernel, ⟨by decide +kernel, by decide +kernel⟩, by decide +kernel, by decide⟩⟩

end System

end MarketCache
