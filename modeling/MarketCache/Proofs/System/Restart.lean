import MarketCache.Cache.Operation
import MarketCache.Proofs.Entry.Codec
import MarketCache.Proofs.Query.KeyUnique
import MarketCache.Proofs.Store.Lasting
import MarketCache.Proofs.System.Pending

/-!
# What was flushed survives a restart

In a sequential run of a single cache that writes its passes itself, over a store that accepts
every write, the latest entry of a key waits, is in hand, or is what was put last under its key.
When the run ends with a flush, nothing waits and nothing is in hand; so a new cache over the
same store reads back the latest entry of every key, until its time to live is over.

Main definitions:
* `System.lastWrite`, `System.clocks`: the last write of a key, and the readings of the clock.
* `System.Spares`: a change of the store by others.
* `System.Secure`, `System.Draining`: the invariants of a run and of its end.
* `System.Recalls`: what a new cache over a store answers.

Results:
* `Secure.stir`, `Draining.stir`: every event keeps the invariants.
* `flushed_survives_restart`: what a new cache answers.
* `not_recalls_latest`: it does not at the latest instant, nor with an entry that is captured in a
  leap second in the midst of a minute.
-/

namespace MarketCache

variable {α ε σ : Type}

/-- A new cache answers with a fresh entry that it reads from the store, and does not ask the
    provider. -/
theorem TieredCache.lookup_start_of_found [Payload α] [DurableStore σ] {φ : Type} {space : String}
    {settings : CacheSettings} {q : LogicalQuery} {now clock : Instant} {store : σ} {v : Bytes}
    {e : Entry α} (hget : (DurableStore.get store clock (q.key space)).1 = .ok (some v))
    (hdecode : Entry.decode v = .ok e)
    (hfresh : isFresh e.capturedAt settings.pollingIntervalSecs now = true) (startedAt : Instant)
    (fetch : φ → Except ε α × φ) (provider : φ) :
    ∃ detached c store', (start space settings startedAt).lookup q now clock fetch provider store =
      (.ok (.cached e), detached, c, store', provider) := by
  have hhot : (start space settings startedAt : TieredCache α).checkHot (q.key space) now =
      (none, start space settings startedAt) := by
    rw [checkHot, start, HotTier.get?_empty]
  have hread : (DurableRead.ofBytes (.ok (some v)) : DurableRead α) = .found e := by
    simp only [DurableRead.ofBytes, hdecode]
  have hjudge : (start space settings startedAt : TieredCache α).policy.isFresh e now = true :=
    hfresh
  unfold lookup consult consultKey
  rw [show (start space settings startedAt : TieredCache α).keyFor q = q.key space from rfl, hhot]
  simp only [hget, hread, checkDurable, if_pos hjudge]
  exact ⟨_, _, _, rfl⟩

/-- Whether a flush has taken what waits and not yet written all of it. -/
def FlushStage.isWriting : FlushStage α → Bool
  | .writing _ => true
  | _ => false

namespace System

/-! ## What the store was asked for, and when -/

/-- What the store's clock shows at an event, if it takes a step. -/
def Event.clock? : Event α ε σ → Option Instant
  | .step clock _ _ => some clock
  | _ => none

/-- Whether an event calls an operation. -/
def Event.isCall : Event α ε σ → Bool
  | .lookup _ _ _ => true
  | .flush _ _ => true
  | .maintain _ _ => true
  | .invalidate _ _ => true
  | _ => false

/-- What the store's clock shows in the course of a run. -/
def clocks (events : List (Event α ε σ)) : List Instant := events.filterMap Event.clock?

/-- The last write of a key. -/
def lastWrite (writes : List (StoreWrite α)) (key : String) : Option (StoreWrite α) :=
  (writes.filter (·.entry.key = key)).getLast?

theorem lastWrite_concat (writes : List (StoreWrite α)) (x : StoreWrite α) (key : String) :
    lastWrite (writes ++ [x]) key = if x.entry.key = key then some x else lastWrite writes key := by
  unfold lastWrite
  rw [List.filter_append]
  by_cases h : x.entry.key = key
  · simp [h]
  · simp [h]

theorem mem_clocks_of_split {events before after : List (Event α ε σ)} {ev : Event α ε σ}
    {t : Instant} (h : events = before ++ ev :: after) (ht : ev.clock? = some t) :
    t ∈ clocks events :=
  List.mem_filterMap.mpr ⟨ev, h ▸ List.mem_append_right _ List.mem_cons_self, ht⟩

section Spares

variable [DurableStore σ] [LastingStore σ]

/-- Whether a change of the store leaves alone what the store holds in a namespace with a time to
    live, as long as it is safe at an instant. -/
def Spares (space : String) (ttl : UInt64) (last : Instant) (change : σ → σ) : Prop :=
  ∀ store q v put, put.IsReading → put.Outlasts ttl last →
    LastingStore.Holds store (LogicalQuery.key q space) v put ttl →
    LastingStore.Holds (change store) (q.key space) v put ttl

variable {space : String} {ttl : UInt64} {last now : Instant}

/-- A cache of another namespace writes. -/
theorem spares_put {other : String} (hne : other ≠ space) (q : LogicalQuery) (now : Instant)
    (value : Bytes) (ttl' : UInt64) : Spares space ttl last fun store : σ =>
      (DurableStore.put store now (q.key other) value ttl').2 :=
  fun _ _ _ _ _ _ h =>
    LastingStore.holds_put_of_ne (fun hkey => hne (LogicalQuery.space_eq_of_key_eq hkey)) h

/-- Whoever reads removes nothing that is safe. -/
theorem spares_get (hnow : now.IsReading) (hlast : last.IsReading) (hle : now ≤ last)
    (key : String) : Spares space ttl last fun store : σ => (DurableStore.get store now key).2 :=
  fun _ _ _ _ hput hsafe h =>
    LastingStore.holds_get hput hnow (hsafe.mono hle hnow.2 hlast.2) h

/-- Whatever fails, it is not what the store holds. -/
theorem spares_withPlan (f : FaultPlan → FaultPlan) :
    Spares space ttl last fun store : FaultyStore σ => { store with plan := f store.plan } :=
  fun _ _ _ _ _ _ h => FaultyStore.holds_withPlan.mpr h

end Spares

/-! ## Where the latest entry of a key is -/

section Secure

variable [Payload α] [DurableStore σ] [LastingStore σ]

/-- Whether the last write of a key was of an entry, and the store still holds its bytes if they
    are safe at an instant. -/
def Landed (ttl : UInt64) (last : Instant) (store : σ) (writes : List (StoreWrite α))
    (key : String) (e : Entry α) (v : Bytes) : Prop :=
  ∃ w, lastWrite writes key = some w ∧ w.entry = e ∧ w.clock.IsReading ∧
    (w.clock.Outlasts ttl last → LastingStore.Holds store key v w.clock ttl)

/-- Whether all that waits or is in hand is the latest of its key, and the latest entry of every
    key waits, is in hand, or has landed, unless it cannot be encoded. -/
structure Secure (ttl : UInt64) (last : Instant) (s : System α ε σ) (log : List (Happening α ε))
    (writes : List (StoreWrite α)) : Prop where
  waiting : ∀ key w, s.waiting? key = some w → latest log key = some w.entry
  inHand : ∀ w, s.InHand w → latest log w.key = some w.entry
  kept : ∀ key e v, latest log key = some e → e.encode? = some v →
    (∃ w, s.waiting? key = some w) ∨ (∃ w, s.InHand w ∧ w.key = key) ∨
      Landed ttl last s.store writes key e v

variable {space : String} {settings : CacheSettings} {ttl : UInt64} {last : Instant}
  {s s' : System α ε σ} {log more : List (Happening α ε)} {writes writes' : List (StoreWrite α)}
  {ev : Event α ε σ} {x : Option (StoreWrite α)}

omit [Payload α] in
/-- The store after a change that leaves alone what is safe. -/
theorem Landed.mono {store store' : σ} {key : String} {e : Entry α} {v : Bytes}
    (h : Landed ttl last store writes key e v)
    (hkept : ∀ put, put.IsReading → put.Outlasts ttl last →
      LastingStore.Holds store key v put ttl → LastingStore.Holds store' key v put ttl) :
    Landed ttl last store' writes key e v := by
  obtain ⟨w, hlast, hentry, hreading, hheld⟩ := h
  exact ⟨w, hlast, hentry, hreading, fun hsafe => hkept w.clock hreading hsafe (hheld hsafe)⟩

omit [Payload α] in
/-- The store after a write of another key. -/
theorem Landed.put {store : σ} {key : String} {e : Entry α} {v : Bytes}
    (h : Landed ttl last store writes key e v) {y : StoreWrite α} (hne : y.entry.key ≠ key)
    (clock : Instant) (value : Bytes) (ttl' : UInt64) :
    Landed ttl last (DurableStore.put store clock y.entry.key value ttl').2 (writes ++ [y]) key e
      v := by
  obtain ⟨w, hlast, hentry, hreading, hheld⟩ := h
  refine ⟨w, ?_, hentry, hreading, fun hsafe => LastingStore.holds_put_of_ne hne (hheld hsafe)⟩
  rw [lastWrite_concat, if_neg hne]
  exact hlast

/-- An event that only changes the store. -/
theorem Secure.keep (h : s.Secure ttl last log writes)
    (hquiet : ∀ id cache e, .fetched id cache e ∉ more)
    (hwaiting : ∀ key, s'.waiting? key = s.waiting? key) (hhand : ∀ w, s'.InHand w ↔ s.InHand w)
    (hlanded : ∀ key e v, latest log key = some e → Landed ttl last s.store writes key e v →
      Landed ttl last s'.store writes key e v) : s'.Secure ttl last (log ++ more) writes where
  waiting key w hw := by
    rw [latest_append_of_not_fetched hquiet]
    exact h.waiting key w (hwaiting key ▸ hw)
  inHand w hw := by
    rw [latest_append_of_not_fetched hquiet]
    exact h.inHand w ((hhand w).mp hw)
  kept key e v he hv := by
    rw [latest_append_of_not_fetched hquiet] at he
    rcases h.kept key e v he hv with ⟨w, hw⟩ | ⟨w, hw, hkey⟩ | hlanded'
    · exact Or.inl ⟨w, (hwaiting key).trans hw⟩
    · exact Or.inr (Or.inl ⟨w, (hhand w).mpr hw, hkey⟩)
    · exact Or.inr (Or.inr (hlanded key e v he hlanded'))

/-- A write that was in hand is attempted, and the entry cannot be encoded or has landed. -/
theorem Secure.attempt (h : s.Secure ttl last log writes) {w : PendingWrite α}
    (hquiet : ∀ id cache e, .fetched id cache e ∉ more)
    (hwaiting : ∀ key, s'.waiting? key = s.waiting? key)
    (hhand : ∀ w', s.InHand w' ↔ w' = w ∨ s'.InHand w')
    (hown : ∀ v, w.entry.encode? = some v → Landed ttl last s'.store writes' w.key w.entry v)
    (hothers : ∀ key e v, w.key ≠ key → Landed ttl last s.store writes key e v →
      Landed ttl last s'.store writes' key e v) : s'.Secure ttl last (log ++ more) writes' where
  waiting key w hw := by
    rw [latest_append_of_not_fetched hquiet]
    exact h.waiting key w (hwaiting key ▸ hw)
  inHand w hw := by
    rw [latest_append_of_not_fetched hquiet]
    exact h.inHand w ((hhand w).mpr (Or.inr hw))
  kept key e v he hv := by
    rw [latest_append_of_not_fetched hquiet] at he
    by_cases hkey : w.key = key
    · -- what was in hand is the latest of its key
      have hlatest := h.inHand w ((hhand w).mpr (Or.inl rfl))
      rw [hkey, he] at hlatest
      cases hlatest
      exact Or.inr (Or.inr (hkey ▸ hown v hv))
    · rcases h.kept key e v he hv with ⟨w', hw'⟩ | ⟨w', hw', hkey'⟩ | hlanded
      · exact Or.inl ⟨w', (hwaiting key).trans hw'⟩
      · rcases (hhand w').mp hw' with rfl | hstill
        · exact absurd hkey' hkey
        · exact Or.inr (Or.inl ⟨w', hstill, hkey'⟩)
      · exact Or.inr (Or.inr (hothers key e v hkey hlanded))

/-- An entry is fetched while nothing is in hand, and waits in the place of an older one. -/
theorem Secure.fetch (h : s.Secure ttl last log writes) {id cache : Nat} {e : Entry α}
    (hwaiting : ∀ key, s'.waiting? key =
      if e.key = key then some ⟨e, e.capturedAt⟩ else s.waiting? key)
    (hidle : ∀ w, ¬ s.InHand w) (hhand : ∀ w, s'.InHand w ↔ s.InHand w)
    (hstore : s'.store = s.store) : s'.Secure ttl last (log ++ [.fetched id cache e]) writes where
  waiting key w hw := by
    rw [hwaiting] at hw
    rw [latest_concat_fetched]
    split at hw
    · next hkey =>
      cases hw
      rw [if_pos hkey]
    · next hkey =>
      rw [if_neg hkey]
      exact h.waiting key w hw
  inHand w hw := absurd ((hhand w).mp hw) (hidle w)
  kept key e' v he hv := by
    rw [latest_concat_fetched] at he
    rw [hwaiting, hstore]
    split at he
    · next hkey => exact Or.inl ⟨_, if_pos hkey⟩
    · next hkey =>
      rw [if_neg hkey]
      rcases h.kept key e' v he hv with hwaits | ⟨w, hw, -⟩ | hlanded
      · exact Or.inl hwaits
      · exact absurd hw (hidle w)
      · exact Or.inr (Or.inr hlanded)

/-- All that waits is taken while nothing is in hand. -/
theorem Secure.take (h : s.Secure ttl last log writes)
    (hquiet : ∀ id cache e, .fetched id cache e ∉ more)
    (hwaiting : ∀ key, s'.waiting? key = none) (hidle : ∀ w, ¬ s.InHand w)
    (hhand : ∀ w, s'.InHand w ↔ ∃ key, s.waiting? key = some w) (hstore : s'.store = s.store) :
    s'.Secure ttl last (log ++ more) writes := by
  have hkeys : ∀ key w, s.waiting? key = some w → w.key = key := fun key w hw =>
    (exists_of_latest (h.waiting key w hw)).1
  refine ⟨fun key w hw => ?_, fun w hw => ?_, fun key e v he hv => ?_⟩
  · rw [hwaiting] at hw
    cases hw
  · obtain ⟨key, hkey⟩ := (hhand w).mp hw
    rw [latest_append_of_not_fetched hquiet, hkeys key w hkey]
    exact h.waiting key w hkey
  · rw [latest_append_of_not_fetched hquiet] at he
    rw [hstore]
    rcases h.kept key e v he hv with ⟨w, hw⟩ | ⟨w, hw, -⟩ | hlanded
    · exact Or.inr (Or.inl ⟨w, (hhand w).mpr ⟨key, hw⟩, hkeys key w hw⟩)
    · exact absurd hw (hidle w)
    · exact Or.inr (Or.inr hlanded)

/-- Every event keeps the invariant, as long as the clock shows no more than at the end and other
    users of the store spare the namespace. -/
theorem Secure.stir (h : s.Secure ttl last log writes) (hstir : Stir s ttl ev more x s')
    (hposed : s.Posed space log) (hlast : last.IsReading)
    (hclock : ∀ t, ev.clock? = some t → t.IsReading ∧ t ≤ last)
    (hspares : ∀ change, ev = .disturb change → Spares space ttl last change) :
    s'.Secure ttl last (log ++ more) (writes ++ x.toList) := by
  cases hstir with
  | keeps hwaiting hhand hstore hquiet =>
    rw [Option.toList_none, List.append_nil writes]
    refine h.keep hquiet hwaiting hhand fun key e v _ hlanded => ?_
    rw [hstore]
    exact hlanded
  | @disturbs change _ hwaiting hhand hstore =>
    rw [Option.toList_none, List.append_nil writes]
    refine h.keep (by simp) hwaiting hhand fun key e v he hlanded => ?_
    obtain ⟨rfl, id, cache, hfetched⟩ := exists_of_latest he
    obtain ⟨q, -, hkey⟩ := hposed.fetched id cache e hfetched
    rw [hstore]
    refine hlanded.mono fun put hput hsafe hheld => ?_
    rw [← hkey] at hheld ⊢
    exact hspares change rfl s.store q v put hput hsafe hheld
  | @reads clock _ _ _ key hwaiting hhand hstore =>
    obtain ⟨hreading, hle⟩ := hclock clock rfl
    rw [Option.toList_none, List.append_nil writes]
    refine h.keep (by simp) hwaiting hhand fun key e v _ hlanded => ?_
    rw [hstore]
    exact hlanded.mono fun put hput hsafe hheld =>
      LastingStore.holds_get hput hreading (hsafe.mono hle hreading.2 hlast.2) hheld
  | fetches hwaiting hidle hhand hstore =>
    rw [Option.toList_none, List.append_nil writes]
    exact h.fetch hwaiting hidle hhand hstore
  | takes hwaiting hidle hhand hstore =>
    rw [Option.toList_none, List.append_nil writes]
    exact h.take (by simp) hwaiting hidle hhand hstore
  | @writes clock _ id w v _ henc hwaiting hhand hput hstore =>
    obtain ⟨hreading, -⟩ := hclock clock rfl
    refine h.attempt (by simp) hwaiting hhand (fun v' hv' => ?_) fun key e v' hne hlanded => ?_
    · rw [henc] at hv'
      cases hv'
      rw [hstore]
      refine ⟨⟨clock, w.entry, v, ttl, .accepted⟩, ?_, rfl, hreading,
        fun _ => LastingStore.holds_put hput⟩
      rw [Option.toList_some, lastWrite_concat, if_pos rfl]
    · rw [hstore]
      exact hlanded.put hne clock v ttl
  | @discards clock _ id w _ henc hwaiting hhand hstore =>
    rw [Option.toList_none, List.append_nil writes]
    refine h.attempt (by simp) hwaiting hhand (fun v' hv' => ?_) fun key e v' hne hlanded => ?_
    · rw [henc] at hv'
      cases hv'
    · rw [hstore]
      exact hlanded

end Secure

/-! ## The flush at the end -/

/-- Whether the flush of a number is the one operation under way, or is over, and nothing waits
    from the moment at which it takes what waits. -/
structure Draining (id : Nat) (s : System α ε σ) : Prop where
  flusher : ∀ k t, s.task? k = some t → t.isOperation = true → k = id ∧
    ∃ now stage, t = .flush 0 now stage ∧
      (stage.isWriting = true → ∀ key, s.waiting? key = none)
  drained : (∃ t, s.task? id = some t ∧ t.isOperation = true) ∨ ∀ key, s.waiting? key = none

section Draining

variable [Payload α] [DurableStore σ] {space : String} {settings : CacheSettings}
  {s s' : System α ε σ} {clock : Instant} {id : Nat} {more : List (Happening α ε)} {ttl : UInt64}
  {ev : Event α ε σ} {x : Option (StoreWrite α)}

/-- A flush goes on as one, or is over once it was writing; as it begins to write, nothing waits
    any more. -/
theorem Turn.flush_onward {now : Instant} {stage : FlushStage α}
    (hturn : Turn s clock id (.flush 0 now stage) more s')
    (ht : s.task? id = some (.flush 0 now stage)) :
    ∃ t', s'.task? id = some t' ∧
      ((∃ stage', t' = .flush 0 now stage' ∧ (stage'.isWriting = true →
        stage.isWriting = true ∨ ∀ key, s'.waiting? key = none)) ∨
      (t'.isOperation = false ∧ stage.isWriting = true)) := by
  have hset : ∀ {s₁ : System α ε σ} {t' : Task α ε}, (s₁.setTask id t').task? id = some t' := by
    intro s₁ t'
    rw [task?_setTask, if_pos rfl]
  have hwriting : ∀ {p : Pass α}, (Task.flush (ε := ε) 0 now stage).pass? = some p →
      stage = .writing p := by
    intro p hp
    cases stage <;> cases hp
    rfl
  cases hturn with
  | idle => exact ⟨_, ht, Or.inl ⟨stage, rfl, Or.inl⟩⟩
  | write store hp hcache hc hw ha =>
    cases hwriting hp
    exact ⟨_, hset, Or.inl ⟨_, rfl, fun _ => Or.inl rfl⟩⟩
  | broke store hp hcache hc hw =>
    cases hwriting hp
    exact ⟨_, hset, Or.inr ⟨rfl, rfl⟩⟩
  | wrote hp hcache hc =>
    cases hwriting hp
    exact ⟨_, hset, Or.inr ⟨rfl, rfl⟩⟩
  | takeOver hf hcache hslot =>
    cases hf
    exact ⟨_, hset, Or.inl ⟨_, rfl, fun hw => by cases hw⟩⟩
  | wait hf =>
    cases hf
    exact ⟨_, hset, Or.inl ⟨_, rfl, fun hw => by cases hw⟩⟩
  | join hf hover =>
    cases hf
    exact ⟨_, hset, Or.inl ⟨_, rfl, fun hw => by cases hw⟩⟩
  | @take _ _ _ c hf hcache hc =>
    cases hf
    cases hcache
    refine ⟨_, hset, Or.inl ⟨_, rfl, fun _ => Or.inr fun key => ?_⟩⟩
    exact (waiting?_setCache hc _ key).trans (WriteBack.pendingFor?_takeAll c.writeBack now key)

omit [Payload α] [DurableStore σ] in
/-- A flush that begins when no operation is under way. -/
theorem draining_add (hrest : s.isResting = true) (now : Instant) :
    Draining s.next (s.add (.flush 0 now .starting)).2 := by
  have htasks : ∀ k, (s.add (.flush 0 now .starting)).2.task? k =
      (s.setTask s.next (.flush 0 now .starting)).task? k := fun _ => rfl
  refine ⟨fun k t hk hop => ?_, Or.inl ⟨.flush 0 now .starting, ?_, rfl⟩⟩
  · rw [htasks, task?_setTask] at hk
    split at hk
    · next heq =>
      cases hk
      exact ⟨heq.symm, now, .starting, rfl, fun hw => by cases hw⟩
    · cases (isResting_iff.mp hrest k t hk).symm.trans hop
  · rw [htasks, task?_setTask, if_pos rfl]

/-- Every event but a call keeps the invariant. -/
theorem Draining.stir (h : s.Draining id) (hsolo : s.Solo space settings)
    (hinline : settings.backgroundFlush = false) (hstir : Stir s ttl ev more x s')
    (hadvance : Advance s ev more s') (hcall : ev.isCall = false) : s'.Draining id := by
  cases hadvance with
  | idle => exact h
  | lookup hc hrest => cases hcall
  | flush hrest => cases hcall
  | invalidate hc hrest => cases hcall
  | disturb => exact ⟨h.flusher, h.drained⟩
  | @step clock outcome k t _ _ ht hturn hreason =>
    by_cases hop : t.isOperation = true
    swap
    · obtain ⟨-, rfl⟩ := hturn.eq_of_not_isOperation (Bool.not_eq_true _ ▸ hop)
        (hsolo.attached hinline k t ht)
      exact h
    obtain ⟨rfl, now, stage, rfl, hnone⟩ := h.flusher k t ht hop
    have hquiet : ∀ k' cache e, .fetched k' cache e ∉ more := fun k' cache e he => by
      obtain ⟨-, c, -, heq, -⟩ := hturn.exists_of_fetched he
      cases heq
    have hkeep := hstir.waiting?_eq_none hquiet
    obtain ⟨t', ht', hnext⟩ := hturn.flush_onward ht
    refine ⟨fun k₁ t₁ hk₁ hop₁ => ?_, ?_⟩
    · by_cases hown : k₁ = k
      · rw [hown, ht'] at hk₁
        cases hk₁
        rcases hnext with ⟨stage', rfl, hbegins⟩ | ⟨hover, -⟩
        · exact ⟨hown, now, stage', rfl, fun hw =>
            (hbegins hw).elim (fun hw₀ => hkeep (hnone hw₀)) fun hnone' => hnone'⟩
        · cases hover.symm.trans hop₁
      · rcases hturn.task?_cases hk₁ with heq | hold | ⟨_, _, rfl⟩
        · exact absurd heq hown
        · exact absurd (h.flusher k₁ t₁ hold hop₁).1 hown
        · cases hop₁
    · rcases hnext with ⟨stage', rfl, -⟩ | ⟨-, hw⟩
      · exact Or.inl ⟨_, ht', rfl⟩
      · exact Or.inr (hkeep (hnone hw))

end Draining

/-! ## Runs that end with a flush -/

section Runs

variable [Payload α] [DurableStore σ] {space : String} {settings : CacheSettings}
  {startedAt last : Instant} {store : σ} {s₀ : System α ε σ}
  {events before tail : List (Event α ε σ)}

/-- What an event of a sequential run does to the entries on their way. -/
theorem stir_of_split (hstart : s₀ = single store space settings startedAt)
    (hinline : settings.backgroundFlush = false) (hseq : s₀.isSequential events = true)
    (haccepted : ∀ w ∈ s₀.writes events, w.outcome = .accepted) {after : List (Event α ε σ)}
    {ev : Event α ε σ} (hsplit : events = before ++ ev :: after) :
    Stir (s₀.run before) settings.durableTtlSecs ev ((s₀.run before).news ev)
      ((s₀.run before).write? ev) ((s₀.run before).apply ev) := by
  subst hstart
  exact apply_stir (admits_of_split hseq hsplit) (solo_run (isSequential_of_split hseq hsplit))
    hinline (numbered_run store _ before).task?_next
    fun w hw => haccepted w (mem_writes_of_split hsplit hw)

/-- A new cache has nothing to write. -/
theorem secure_single [LastingStore σ] {ttl : UInt64} :
    (single store space settings startedAt : System α ε σ).Secure ttl last [] [] where
  waiting key w hw := by
    have hnone := WriteBack.pendingFor?_start (α := α) settings.flushIntervalSecs
      settings.durableTtlSecs startedAt key
    cases hnone.symm.trans hw
  inHand w hw := by
    obtain ⟨id, t, ht, -⟩ := hw
    rw [task?_ofSpecs] at ht
    cases ht
  kept key e v he := by cases he

/-- In the course of a run the latest entry of every key waits, is in hand, or has landed. -/
theorem secure_run [LastingStore σ] (hstart : s₀ = single store space settings startedAt)
    (hinline : settings.backgroundFlush = false) (hseq : s₀.isSequential events = true)
    (haccepted : ∀ w ∈ s₀.writes events, w.outcome = .accepted) (hlast : last.IsReading)
    (hclocks : ∀ t ∈ clocks events, t.IsReading ∧ t ≤ last)
    (hown : ∀ change, .disturb change ∈ events →
      Spares space settings.durableTtlSecs last change) :
    (s₀.run events).Secure settings.durableTtlSecs last (s₀.history events)
      (s₀.writes events) := by
  subst hstart
  refine prefix_induction (P := fun events =>
    ((single store space settings startedAt).run events).Secure settings.durableTtlSecs last
      ((single store space settings startedAt).history events)
      ((single store space settings startedAt).writes events)) secure_single
    fun part ev after hsplit h => ?_
  rw [run_concat, history_concat, writes_concat]
  refine h.stir (stir_of_split rfl hinline hseq haccepted hsplit)
    (posed_run (isSequential_of_split hseq hsplit)) hlast
    (fun t ht => hclocks t (mem_clocks_of_split hsplit ht)) ?_
  rintro change rfl
  exact hown change (hsplit ▸ List.mem_append_right _ List.mem_cons_self)

/-- At the end of a run that calls nothing after a flush. -/
theorem draining_run {now : Instant} (hstart : s₀ = single store space settings startedAt)
    (hinline : settings.backgroundFlush = false)
    (hseq : s₀.isSequential (before ++ .flush 0 now :: tail) = true)
    (haccepted : ∀ w ∈ s₀.writes (before ++ .flush 0 now :: tail), w.outcome = .accepted)
    (htail : ∀ ev ∈ tail, ev.isCall = false) :
    (s₀.run (before ++ .flush 0 now :: tail)).Draining (s₀.run before).next := by
  subst hstart
  refine prefix_induction (P := fun part =>
    ((single store space settings startedAt).run (before ++ .flush 0 now :: part)).Draining
      ((single store space settings startedAt).run before).next) ?_
    fun part ev after hsplit h => ?_
  · rw [run_concat]
    exact draining_add (admits_of_split hseq rfl) now
  · have hwhole : before ++ .flush 0 now :: tail =
        (before ++ .flush 0 now :: part) ++ ev :: after := by
      rw [hsplit, List.append_assoc, List.cons_append]
    rw [← List.cons_append, ← List.append_assoc, run_concat]
    exact h.stir (solo_run (isSequential_of_split hseq hwhole)) hinline
      (stir_of_split rfl hinline hseq haccepted hwhole)
      (apply_advance (admits_of_split hseq hwhole))
      (htail ev (hsplit ▸ List.mem_append_right _ List.mem_cons_self))

omit [Payload α] [DurableStore σ] in
/-- When the flush at the end is over, nothing waits and nothing is in hand. -/
theorem Draining.over {s : System α ε σ} {id : Nat} {r : FlushReport} (h : s.Draining id)
    (hsolo : s.Solo space settings) (hinline : settings.backgroundFlush = false)
    (hflushed : s.task? id = some (.flushed r)) :
    (∀ key, s.waiting? key = none) ∧ ∀ w, ¬ s.InHand w := by
  refine ⟨?_, fun w => ?_⟩
  · rcases h.drained with ⟨t, ht, hop⟩ | hnone
    · rw [hflushed] at ht
      cases ht
      cases hop
    · exact hnone
  · refine not_inHand_of_isResting (isResting_iff.mpr fun k t hk => ?_) (hsolo.attached hinline)
    refine Bool.not_eq_true _ ▸ fun hop => ?_
    obtain ⟨rfl, now, stage, rfl, -⟩ := h.flusher k t hk hop
    rw [hflushed] at hk
    cases hk

/-- Whether a new cache of a namespace over a store, with the clock at `clock`, answers a lookup
    of a key with an entry as long as the entry is fresh, and does not ask the provider, unless its
    read of the store is refused. -/
def Recalls (ε : Type) (space : String) (store : σ) (clock : Instant) (key : String)
    (e : Entry α) : Prop :=
  ∀ (settings : CacheSettings) (startedAt : Instant) (q : LogicalQuery) (now : Instant) (φ : Type)
    (fetch : φ → Except ε α × φ) (provider : φ) (r : Option Bytes),
    q.key space = key → isFresh e.capturedAt settings.pollingIntervalSecs now = true →
    (DurableStore.get store clock key).1 = .ok r →
    ∃ detached c store', (TieredCache.start space settings startedAt).lookup q now clock fetch
      provider store = (.ok (.cached e), detached, c, store', provider)

/-- Take a sequential run of a single cache that writes its passes itself, over a lasting store
    that accepts every write and in which others spare the namespace, with a flush as its last
    call. The last write of a key is of its latest entry, and as long as the write is safe, every
    new cache over the store recalls the entry. Lookups may be as of any times, but the latest entry
    is not captured in a leap second in the midst of a minute. Its payload holds no double, nests at
    most 126 deep, and has its objects in canonical form, the only form in which a sorted map keeps
    them. -/
theorem flushed_survives_restart [ReadablePayload α] [LastingStore σ] {now : Instant}
    {key : String} {e : Entry α} {v : Json} (hstart : s₀ = single store space settings startedAt)
    (hinline : settings.backgroundFlush = false) (hseq : s₀.isSequential events = true)
    (hflush : events = before ++ .flush 0 now :: tail) (htail : ∀ ev ∈ tail, ev.isCall = false)
    (hflushed : ∃ r, (s₀.run events).task? (s₀.run before).next = some (.flushed r))
    (haccepted : ∀ w ∈ s₀.writes events, w.outcome = .accepted) (hlast : last.IsReading)
    (hclocks : ∀ t ∈ clocks events, t.IsReading ∧ t ≤ last)
    (hown : ∀ change, .disturb change ∈ events → Spares space settings.durableTtlSecs last change)
    (htimes : ∀ t ∈ times (s₀.history events), t.Representable)
    (hlatest : latest (s₀.history events) key = some e) (hends : e.capturedAt.LeapEndsMinute)
    (hv : Payload.toJson? e.payload = some v) (hfloat : v.floatFree = true)
    (hcanonical : v.canonical = true) (hdepth : v.depth ≤ 126) :
    ∃ w, lastWrite (s₀.writes events) key = some w ∧ w.entry = e ∧
      (w.clock.Outlasts settings.durableTtlSecs last →
        Recalls ε space (s₀.run events).store last key e) := by
  subst hstart hflush
  have hsecure := secure_run rfl hinline hseq haccepted hlast hclocks hown
  have hdraining := draining_run rfl hinline hseq haccepted htail
  obtain ⟨r, hr⟩ := hflushed
  obtain ⟨hnone, hidle⟩ := hdraining.over (solo_run hseq) hinline hr
  obtain ⟨rfl, id, cache, hfetched⟩ := exists_of_latest hlatest
  obtain ⟨q, hasked, -⟩ := (posed_run hseq).fetched id cache e hfetched
  obtain ⟨bytes, henc, hdecode⟩ := Entry.decode_encode hv hfloat hcanonical
    (Nat.lt_of_le_of_lt hdepth (by decide)) (htimes _ (mem_times_of_asked hasked))
  rw [Entry.asWritten_eq_self_iff.mpr hends] at hdecode
  rcases hsecure.kept e.key e bytes hlatest henc with ⟨w, hw⟩ | ⟨w, hw, -⟩ | hlanded
  · cases (hnone e.key).symm.trans hw
  · exact absurd hw (hidle w)
  obtain ⟨w, hwrite, hentry, hput, hheld⟩ := hlanded
  refine ⟨w, hwrite, hentry, fun hsafe => ?_⟩
  intro settings' startedAt' q now' φ fetch provider r' hkey hfresh hr'
  have hread := LastingStore.eq_of_holds hput hlast hsafe (hheld hsafe) hr'
  rw [hread, ← hkey] at hr'
  exact TieredCache.lookup_start_of_found hr' hdecode hfresh startedAt' fetch provider

end Runs

/-! ### A run in which an entry is superseded -/

/-- An entry is fetched; so is a later one, as a read of the store is refused, and a pass that is
    due then puts it into the store; at last a third one is fetched. In the meantime a cache of
    another namespace writes, and somebody else reads the key. -/
def superseding : List (Event String Unit (FaultyStore RecordStore)) :=
  lookupRun (.ofSymbols ["a"]) 0 ⟨100, 0⟩ [none, none, none, some (.ok "u"), none] ++
    [.disturb fun s => { s with plan := { s.plan with failReads := true } }] ++
    lookupRun (.ofSymbols ["a"]) 1 ⟨450, 0⟩
      [none, none, none, some (.ok "v"), none, none, none] ++
    [.disturb fun s => { s with plan := { s.plan with failReads := false } },
      .disturb fun s =>
        (DurableStore.put s ⟨460, 0⟩ (LogicalQuery.key (.ofSymbols ["a"]) "m") [] 60).2,
      .disturb fun s => (DurableStore.get s ⟨461, 0⟩ "n:A").2] ++
    lookupRun (.ofSymbols ["a"]) 2 ⟨520, 0⟩ [none, none, none, some (.ok "w"), none]

/-- The same, with a flush at the end. -/
def settling : List (Event String Unit (FaultyStore RecordStore)) :=
  superseding ++ .flush 0 ⟨521, 0⟩ :: List.replicate 5 (.step ⟨521, 0⟩ none 3)

/-- The cache of these runs. -/
def superseded : System String Unit (FaultyStore RecordStore) :=
  single (.ofStore .empty) "n" ⟨60, 300, 86400, false⟩ ⟨100, 0⟩

theorem flushed_survives_restart_superseding :
    ∃ w, lastWrite (superseded.writes settling) "n:A" = some w ∧ w.clock = ⟨521, 0⟩ ∧
      Recalls Unit "n" (superseded.run settling).store ⟨600, 0⟩ "n:A"
        ⟨"n:A", "w", ⟨520, 0⟩⟩ := by
  have hown : ∀ change, .disturb change ∈ settling → Spares "n" 86400 ⟨600, 0⟩ change := by
    intro change hmem
    simp only [settling, superseding, lookupRun, List.replicate, List.map_cons, List.map_nil,
      List.cons_append, List.nil_append, List.mem_cons, List.not_mem_nil, reduceCtorEq, false_or,
      or_false, Event.disturb.injEq] at hmem
    rcases hmem with rfl | rfl | rfl | rfl
    · exact spares_withPlan fun plan => { plan with failReads := true }
    · exact spares_withPlan fun plan => { plan with failReads := false }
    · exact spares_put (by decide) _ _ _ _
    · exact spares_get (by decide) (by decide) (by decide) _
  have hlatest : latest (superseded.history settling) "n:A" = some ⟨"n:A", "w", ⟨520, 0⟩⟩ := by
    decide +kernel
  obtain ⟨w, hw, -, hrecalls⟩ := flushed_survives_restart (rfl : superseded = single _ _ _ _) rfl
    (by decide +kernel) (rfl : settling = superseding ++ _) (by decide +kernel)
    ⟨⟨1, 1, 0⟩, by decide +kernel⟩ (by decide +kernel) (by decide +kernel) (by decide +kernel) hown
    (by decide +kernel) hlatest (by decide) rfl rfl rfl (by decide)
  have hclock : (lastWrite (superseded.writes settling) "n:A").map (·.clock) = some ⟨521, 0⟩ := by
    decide +kernel
  rw [hw] at hclock
  have hput : w.clock = ⟨521, 0⟩ := Option.some.inj hclock
  refine ⟨w, hw, hput, hrecalls ?_⟩
  rw [hput]
  decide

/-! ### At the latest instant, and in the midst of a minute -/

/-- An entry is fetched as of `now` and flushed, while the clock shows `clock`. -/
def fetchAndFlush (now clock : Instant) : List (Event String Unit MemoryStore) :=
  .lookup 0 (.ofSymbols ["a"]) now ::
    [none, none, none, some (.ok "v"), none].map (.step clock · 0) ++
    .flush 0 ⟨1700000001, 0⟩ :: List.replicate 5 (.step clock none 1)

/-- The run in which the clock shows the last second but one before the latest instant. -/
def expiring : List (Event String Unit MemoryStore) :=
  fetchAndFlush ⟨1700000000, 0⟩ ⟨8210266876798, 0⟩

/-- The run in which the entry is captured in a leap second behind the twentieth second of a
    minute. -/
def midMinute : List (Event String Unit MemoryStore) :=
  fetchAndFlush ⟨1700000000, 1500000000⟩ ⟨1700000001, 0⟩

/-- The cache of these runs. -/
def expired : System String Unit MemoryStore :=
  single .empty "n" ⟨300, 600, 86400, false⟩ ⟨1700000000, 0⟩

/-- What a new cache over a store answers a lookup of the key two seconds after the capture. -/
def answerAnew (store : MemoryStore) (clock : Instant) : Except Unit (Lookup String) :=
  ((TieredCache.start "n" ⟨300, 600, 86400, false⟩ ⟨1700000000, 0⟩).lookup (.ofSymbols ["a"])
    ⟨1700000002, 0⟩ clock (fun provider => (.ok "w", provider)) () store).1

/-- The new cache does not answer with an entry that it should recall. -/
theorem not_recalls_of_answerAnew {store : MemoryStore} {clock : Instant} {e : Entry String}
    (hfresh : isFresh e.capturedAt 300 ⟨1700000002, 0⟩ = true)
    (hread : (DurableStore.get store clock "n:A").1.isOk = true)
    (hanswer : answerAnew store clock ≠ .ok (.cached e)) :
    ¬ Recalls Unit "n" store clock "n:A" e := by
  intro h
  have hkey : LogicalQuery.key (.ofSymbols ["a"]) "n" = "n:A" := by decide +kernel
  rcases hr : (DurableStore.get store clock "n:A").1 with _ | r
  · rw [hr] at hread
    cases hread
  · obtain ⟨detached, c, store', hlookup⟩ := h ⟨300, 600, 86400, false⟩ ⟨1700000000, 0⟩
      (.ofSymbols ["a"]) ⟨1700000002, 0⟩ Unit (fun provider => (.ok "w", provider)) () r hkey hfresh
      hr
    rw [answerAnew, hlookup] at hanswer
    exact hanswer rfl

/-- At the latest instant a value in memory is over, however long it has to live: the write of the
    latest entry has almost a day left, and yet a new cache asks the provider. And an entry that is
    captured in a leap second in the midst of a minute is read back as one of the next second. -/
theorem not_recalls_latest : (expired.isSequential expiring = true ∧
    (expired.run expiring).task? 1 = some (.flushed ⟨1, 1, 0⟩) ∧
    (∀ w ∈ expired.writes expiring, w.outcome = .accepted) ∧
    (∀ t ∈ clocks expiring, t.IsReading ∧ t ≤ .latest) ∧
    latest (expired.history expiring) "n:A" = some ⟨"n:A", "v", ⟨1700000000, 0⟩⟩ ∧
    (∃ w, lastWrite (expired.writes expiring) "n:A" = some w ∧
      w.entry = ⟨"n:A", "v", ⟨1700000000, 0⟩⟩ ∧
      Instant.latest.nanos + 1000000 ≤ w.clock.nanos + 86400 * 1000000000) ∧
    ¬ Recalls Unit "n" (expired.run expiring).store .latest "n:A"
      ⟨"n:A", "v", ⟨1700000000, 0⟩⟩) ∧
    expired.isSequential midMinute = true ∧
    (expired.run midMinute).task? 1 = some (.flushed ⟨1, 1, 0⟩) ∧
    (∀ w ∈ expired.writes midMinute, w.outcome = .accepted) ∧
    (∀ t ∈ clocks midMinute, t.IsReading ∧ t ≤ ⟨1700000001, 0⟩) ∧
    (∀ t ∈ times (expired.history midMinute), t.Representable) ∧
    latest (expired.history midMinute) "n:A" = some ⟨"n:A", "v", ⟨1700000000, 1500000000⟩⟩ ∧
    (∃ w, lastWrite (expired.writes midMinute) "n:A" = some w ∧
      w.clock.Outlasts 86400 ⟨1700000001, 0⟩) ∧
    ¬ Recalls Unit "n" (expired.run midMinute).store ⟨1700000001, 0⟩ "n:A"
      ⟨"n:A", "v", ⟨1700000000, 1500000000⟩⟩ := by
  refine ⟨⟨by decide +kernel, by decide +kernel, by decide +kernel, by decide +kernel,
    by decide +kernel, ?_, ?_⟩, by decide +kernel, by decide +kernel, by decide +kernel,
    by decide +kernel, by decide +kernel, by decide +kernel, ?_, ?_⟩
  · have hwrite : (lastWrite (expired.writes expiring) "n:A").map (fun w => (w.entry, w.clock)) =
        some (⟨"n:A", "v", ⟨1700000000, 0⟩⟩, ⟨8210266876798, 0⟩) := by decide +kernel
    obtain ⟨w, hw, hparts⟩ := Option.map_eq_some_iff.mp hwrite
    obtain ⟨hentry, hclock⟩ := Prod.mk.inj hparts
    refine ⟨w, hw, hentry, ?_⟩
    rw [hclock]
    decide
  · -- it asks the provider
    exact not_recalls_of_answerAnew (by decide +kernel) (by decide +kernel) (by decide +kernel)
  · have hwrite : (lastWrite (expired.writes midMinute) "n:A").map (·.clock) =
        some ⟨1700000001, 0⟩ := by decide +kernel
    obtain ⟨w, hw, hclock⟩ := Option.map_eq_some_iff.mp hwrite
    refine ⟨w, hw, ?_⟩
    rw [hclock]
    decide
  · -- it answers with another capture time
    exact not_recalls_of_answerAnew (by decide +kernel) (by decide +kernel) (by decide +kernel)

end System

end MarketCache
