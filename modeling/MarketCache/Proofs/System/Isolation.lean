import MarketCache.Proofs.System.Mirror

/-!
# Caches that share a store do not interfere

Caches with namespaces of their own may share a store. Whatever the others do, a cache comes off
as if it were alone: leave out of a run all that was asked of the others and all steps of their
tasks, and every lookup gets the same answer, the provider is asked by the same lookups, the
same entries are hot and wait, the same are written, the counters are the same, and so is what
the store has under the keys of the cache.

Main definitions:
* `System.tasksOf`: the tasks that are started for a cache in a run.
* `System.only`: the run without what was asked of other caches.
* `System.Unaffected`: what a cache has in common in two runs.

Results:
* `Turn.bypasses`, `bypasses_abort`: what tasks of other caches do leaves a cache alone.
* `Mirrors.matches`, `Mirrors.run`: with and without other caches, an event and a run have the
  same effect on a cache.
* `unaffected_run`: a cache is unaffected by others.
-/

namespace MarketCache

variable {α ε σ : Type}

namespace System

section Only

variable [Payload α] [DurableStore σ]

/-- The number of the task that an event starts for a cache, if it starts one. -/
def enrolled (s : System α ε σ) (a : Nat) (ev : Event α ε σ) : List Nat :=
  match (s.apply ev).task? s.next with
  | some t => if t.cache? = some a then [s.next] else []
  | none => []

/-- The numbers of the tasks that are started for a cache in a run. -/
def tasksOf (s : System α ε σ) (a : Nat) : List (Event α ε σ) → List Nat
  | [] => []
  | ev :: events => s.enrolled a ev ++ (s.apply ev).tasksOf a events

/-- An event as it is without other caches: what was asked of other caches is left out, and so
    are the steps of tasks that are not in `mine`. What the clock shows at a step, and what the
    provider answers, stays the same. -/
def Event.only (a : Nat) (mine : List Nat) : Event α ε σ → Option (Event α ε σ)
  | .lookup cache q now => if cache = a then some (.lookup cache q now) else none
  | .flush cache now => if cache = a then some (.flush cache now) else none
  | .maintain cache secs => if cache = a then some (.maintain cache secs) else none
  | .invalidate cache q => if cache = a then some (.invalidate cache q) else none
  | .step clock outcome id =>
    if id ∈ mine then some (.step clock outcome (place mine id)) else none
  | .abort id => if id ∈ mine then some (.abort (place mine id)) else none
  | .disturb change => some (.disturb change)

/-- A run without what was asked of other caches. -/
def only (s : System α ε σ) (a : Nat) (events : List (Event α ε σ)) : List (Event α ε σ) :=
  events.filterMap (Event.only a (s.tasksOf a events))

end Only

/-! ## The tasks of a cache stay its own -/

/-- Whether a new task, if there is one, is among those of `mine` just if it is one of the cache. -/
def Enrols (mine : List Nat) (a : Nat) (s s' : System α ε σ) : Prop :=
  ∀ t, s'.task? s.next = some t → (s.next ∈ mine ↔ t.cache? = some a)

section Owned

variable {mine : List Nat} {a : Nat} {s s' : System α ε σ} {id : Nat} {t t' : Task α ε}

theorem Owned.setTask (h : s.Owned mine a)
    (ht : ∀ k, t.cache? = some k → ∀ p, p = id ∨ p ∈ t.joined → (p ∈ mine ↔ k = a)) :
    (s.setTask id t).Owned mine a where
  tasks id' t' k ht' hk p hp := by
    rw [task?_setTask] at ht'
    split at ht'
    · next heq =>
      cases ht'
      exact ht k hk p (heq ▸ hp)
    · exact h.tasks id' t' k ht' hk p hp
  inFlight := h.inFlight

/-- A task that goes on and waits for nothing new. -/
theorem Owned.goOn (h : s.Owned mine a) (ht : s.task? id = some t) (hcache : t'.cache? = t.cache?)
    (hjoined : ∀ p ∈ t'.joined, p ∈ t.joined) : (s.setTask id t').Owned mine a :=
  h.setTask fun k hk p hp => h.tasks id t k ht (hcache ▸ hk) p (hp.imp_right (hjoined p))

/-- A task that is over. -/
theorem Owned.endTask (h : s.Owned mine a) (hover : t'.cache? = none) :
    (s.setTask id t').Owned mine a :=
  h.setTask fun k hk => by cases hover.symm.trans hk

theorem Owned.modify (h : s.Owned mine a) {cache : Nat} {f : Slot α → Slot α}
    (hf : ∀ slot, ∀ p ∈ (f slot).inFlight, p ∈ slot.inFlight ∨ (p ∈ mine ↔ cache = a)) :
    ({ s with slots := s.slots.modify cache f } : System α ε σ).Owned mine a where
  tasks := h.tasks
  inFlight k slot hslot p hp := by
    rw [List.getElem?_modify] at hslot
    obtain ⟨slot', hslot', rfl⟩ := Option.map_eq_some_iff.mp hslot
    split at hp
    · next heq =>
      rcases hf slot' p hp with hp | hp
      · exact h.inFlight k slot' hslot' p hp
      · exact heq ▸ hp
    · exact h.inFlight k slot' hslot' p hp

theorem Owned.setCache (h : s.Owned mine a) (cache : Nat) (c : TieredCache α) :
    (s.setCache cache c).Owned mine a := h.modify fun _ _ hp => Or.inl hp

/-- A flush takes the passes of a cache over. -/
theorem Owned.setSlot (h : s.Owned mine a) (cache : Nat) (c : TieredCache α) :
    (s.setSlot cache ⟨c, []⟩).Owned mine a where
  tasks := h.tasks
  inFlight k slot hslot p hp := by
    unfold System.setSlot at hslot
    rw [List.getElem?_set] at hslot
    split at hslot
    · split at hslot
      · cases hslot
        cases hp
      · cases hslot
    · exact h.inFlight k slot hslot p hp

theorem Owned.add (h : s.Owned mine a) (hnext : s.next ∈ mine ↔ t.cache? = some a)
    (hjoined : t.joined = []) : (s.add t).2.Owned mine a := by
  have hset : (s.setTask s.next t).Owned mine a := h.setTask fun k hk p hp => by
    rcases hp with rfl | hp
    · rw [hnext, hk, Option.some.injEq]
    · rw [hjoined] at hp
      cases hp
  exact ⟨hset.tasks, hset.inFlight⟩

/-- The pass that a lookup hands its batch to. -/
theorem task?_next_detach {s₁ : System α ε σ} {cache : Nat} {batch : List (PendingWrite α)}
    (hlt : id < s.next) (htasks : s₁.tasks = (s.add (.pass cache (.ofBatch batch))).2.tasks)
    (t : Task α ε) : (s₁.setTask id t).task? s.next = some (.pass cache (.ofBatch batch)) := by
  have hsame : s₁.task? s.next = (s.add (.pass cache (.ofBatch batch))).2.task? s.next := by
    unfold task?
    rw [htasks]
  rw [task?_setTask, if_neg (Nat.ne_of_lt hlt), hsame, task?_add_self]

theorem mem_iff_of_detach {s₁ : System α ε σ} {cache : Nat} {batch : List (PendingWrite α)}
    (hlt : id < s.next) (htasks : s₁.tasks = (s.add (.pass cache (.ofBatch batch))).2.tasks)
    (hnew : Enrols mine a s (s₁.setTask id t)) : s.next ∈ mine ↔ cache = a := by
  rw [hnew _ (task?_next_detach hlt htasks t), Task.cache?, Option.some.injEq]

theorem cache?_afterPass {p : Pass α} (hp : t.pass? = some p) (r : FlushReport) :
    (t.afterPass r).cache? = none ∨ (t.afterPass r).cache? = t.cache? := by
  rcases writer_cases hp with ⟨_, _, _, _, rfl⟩ | ⟨_, _, rfl⟩ | ⟨_, rfl⟩ | ⟨_, _, _, rfl⟩
  · exact Or.inl rfl
  · exact Or.inl rfl
  · exact Or.inl rfl
  · exact Or.inr rfl

/-- A flush that goes on and waits for nothing new. -/
theorem Owned.withFlush (h : s.Owned mine a) (ht : s.task? id = some t) {now : Instant}
    {stage : FlushStage α} (hf : t.flushing? = some (now, stage)) {stage' : FlushStage α}
    (hjoined : ∀ p ∈ stage'.joined, p ∈ stage.joined) :
    (s.setTask id (t.withFlush stage')).Owned mine a := by
  refine h.goOn ht (cache?_withFlush hf stage').1 fun p hp => ?_
  rw [joined_withFlush hf] at hp
  rw [joined_of_flushing? hf]
  exact hjoined p hp

variable [Payload α] [DurableStore σ] {clock : Instant} {more : List (Happening α ε)}

theorem Turn.owned (hturn : Turn s clock id t more s') (ht : s.task? id = some t)
    (hlt : id < s.next) (h : s.Owned mine a) (hnew : Enrols mine a s s') : s'.Owned mine a := by
  have hstore : ∀ store : σ, ({ s with store } : System α ε σ).Owned mine a := fun store =>
    ⟨h.tasks, h.inFlight⟩
  cases hturn with
  | idle => exact h
  | hot hc he hfresh => exact (h.setCache _ _).goOn ht rfl fun _ hp => hp
  | cold hc => exact (h.setCache _ _).goOn ht rfl fun _ hp => hp
  | read store => exact (hstore store).goOn ht rfl fun _ hp => hp
  | durable hc hfresh => exact (h.setCache _ _).goOn ht rfl fun _ hp => hp
  | call counters hc => exact (h.setCache _ _).goOn ht rfl fun _ hp => hp
  | fetched payload hc => exact (h.setCache _ _).goOn ht rfl fun _ hp => hp
  | refused err => exact h.goOn ht rfl fun _ hp => hp
  | rest => exact h.endTask rfl
  | hand hc => exact (h.setCache _ _).goOn ht rfl fun _ hp => hp
  | begin hc => exact (h.setCache _ _).goOn ht rfl fun _ hp => hp
  | @detach key now answer cache batch c hc =>
    have hpass : s.next ∈ mine ↔ cache = a := mem_iff_of_detach hlt rfl hnew
    have hadd : (s.add (.pass cache (.ofBatch batch))).2.Owned mine a :=
      h.add (hpass.trans (by simp [Task.cache?])) rfl
    refine Owned.endTask (hadd.modify fun slot p hp => ?_) rfl
    refine (List.mem_append.mp hp).imp_right fun hp => ?_
    rw [List.mem_singleton.mp hp]
    exact hpass
  | write store hp =>
    refine (hstore store).goOn ht (cache?_withPass hp _).1 fun p hmem => ?_
    rw [joined_of_pass? (pass?_withPass hp _)] at hmem
    cases hmem
  | broke store => exact (hstore store).endTask rfl
  | @wrote _ cache c r hp =>
    rcases cache?_afterPass hp r with hover | hsame
    · exact (h.setCache _ _).endTask hover
    · refine (h.setCache _ _).goOn ht hsame fun p hmem => ?_
      rw [joined_afterPass hp] at hmem
      cases hmem
  | wake => exact h.goOn ht rfl fun _ hp => hp
  | @takeOver _ now cache slot hf hcache hslot =>
    refine (h.setSlot cache slot.cache).setTask fun k hk p hp => ?_
    rw [(cache?_withFlush hf _).1] at hk
    rw [joined_withFlush hf] at hp
    rcases hp with hp | hp
    · exact h.tasks id t k ht hk p (Or.inl hp)
    · cases hcache.symm.trans hk
      exact h.inFlight cache slot hslot p hp
  | wait hf => exact h.withFlush ht hf fun _ hp => hp
  | join hf hover => exact h.withFlush ht hf fun _ hp => absurd hp List.not_mem_nil
  | take hf hcache hc =>
    exact (h.setCache _ _).withFlush ht hf fun _ hp => absurd hp List.not_mem_nil

theorem Move.owned {ev : Event α ε σ} (hmove : Move s ev more s')
    (hlt : ∀ id t, s.task? id = some t → id < s.next) (h : s.Owned mine a)
    (hnew : Enrols mine a s s') : s'.Owned mine a := by
  have hadd : ∀ t : Task α ε, t.joined = [] → Enrols mine a s (s.add t).2 →
      (s.add t).2.Owned mine a := fun t hjoined hnew =>
    h.add (hnew t (task?_add_self s t)) hjoined
  cases hmove with
  | idle => exact h
  | lookup hc => exact hadd _ rfl hnew
  | flush => exact hadd _ rfl hnew
  | maintain => exact hadd _ rfl hnew
  | invalidate hc => exact h.setCache _ _
  | step ht hturn => exact hturn.owned ht (hlt _ _ ht) h hnew
  | abort =>
    exact abort_induction (P := fun s => s.Owned mine a) h (fun s id t _ _ h => h.endTask rfl) _
  | disturb => exact ⟨h.tasks, h.inFlight⟩

end Owned

/-! ## What other caches do leaves a cache alone -/

/-- Whether a change of a system bypasses a cache: its state, its tasks and what the store has
    under the keys of its namespace stay as they are. -/
structure Bypasses [DurableStore σ] [LocalStore σ] (mine : List Nat) (a : Nat) (space : String)
    (s s' : System α ε σ) : Prop where
  slot : s'.slots[a]? = s.slots[a]?
  stores : AgreeOn space s.store s'.store
  tasks : ∀ id ∈ mine, s'.task? id = s.task? id
  next : place mine s'.next = place mine s.next

section Bypasses

variable [DurableStore σ] [LocalStore σ] {mine : List Nat} {a : Nat} {space : String}
  {s s₁ s' o : System α ε σ} {id : Nat} {t : Task α ε}

theorem Bypasses.refl (s : System α ε σ) : Bypasses mine a space s s :=
  ⟨rfl, fun _ _ => rfl, fun _ _ => rfl, rfl⟩

theorem Mirrors.bypass (h : Mirrors mine a space s o) (hs : Bypasses mine a space s s') :
    Mirrors mine a space s' o where
  slot := by rw [h.slot, hs.slot]
  stores key hkey := (h.stores key hkey).trans (hs.stores key hkey).symm
  tasks id hid := by rw [h.tasks id hid, hs.tasks id hid]
  next := by rw [h.next, hs.next]

theorem Bypasses.setTask (h : Bypasses mine a space s s₁) (hid : id ∉ mine) (t : Task α ε) :
    Bypasses mine a space s (s₁.setTask id t) where
  slot := h.slot
  stores := h.stores
  tasks k hk := by
    have hne : id ≠ k := fun heq => hid (heq ▸ hk)
    rw [task?_setTask, if_neg hne, h.tasks k hk]
  next := h.next

theorem Bypasses.modify (h : Bypasses mine a space s s₁) {cache : Nat} (hne : cache ≠ a)
    (f : Slot α → Slot α) :
    Bypasses mine a space s { s₁ with slots := s₁.slots.modify cache f } where
  slot := by
    simp only [List.getElem?_modify, if_neg hne, ← h.slot]
    exact Option.map_id'
  stores := h.stores
  tasks := h.tasks
  next := h.next

theorem Bypasses.setCache (h : Bypasses mine a space s s₁) {cache : Nat} (hne : cache ≠ a)
    (c : TieredCache α) : Bypasses mine a space s (s₁.setCache cache c) := h.modify hne _

theorem Bypasses.setSlot (h : Bypasses mine a space s s₁) {cache : Nat} (hne : cache ≠ a)
    (slot : Slot α) : Bypasses mine a space s (s₁.setSlot cache slot) where
  slot := (List.getElem?_set_ne hne).trans h.slot
  stores := h.stores
  tasks := h.tasks
  next := h.next

theorem Bypasses.withStore (h : Bypasses mine a space s s₁) {store : σ}
    (hstore : AgreeOn space s₁.store store) : Bypasses mine a space s { s₁ with store } where
  slot := h.slot
  stores key hkey := (hstore key hkey).trans (h.stores key hkey)
  tasks := h.tasks
  next := h.next

theorem Bypasses.add (h : Bypasses mine a space s s₁) (hnext : s₁.next ∉ mine) (t : Task α ε) :
    Bypasses mine a space s (s₁.add t).2 := by
  have hset := h.setTask hnext t
  refine ⟨hset.slot, hset.stores, hset.tasks, ?_⟩
  show place mine (s₁.next + 1) = place mine s.next
  rw [place_succ, if_neg hnext, ← h.next]
  rfl

/-- A read of another namespace. -/
theorem agreeOn_get {key : String} (hkey : ∀ k, InSpace space k → key ≠ k) (clock : Instant)
    (store : σ) : AgreeOn space store (DurableStore.get store clock key).2 :=
  fun k hk => LocalStore.cell_get_of_ne clock (hkey k hk)

variable [Payload α]

/-- A write of another namespace. -/
theorem agreeOn_attempt {w : PendingWrite α} (hkey : ∀ k, InSpace space k → w.key ≠ k)
    (ttlSecs : UInt64) (clock : Instant) (store : σ) :
    AgreeOn space store (w.attempt ttlSecs clock store).2 := by
  unfold PendingWrite.attempt
  rcases w.entry.encode? with _ | bytes
  · exact fun _ _ => rfl
  · exact fun k hk => LocalStore.cell_put_of_ne clock bytes ttlSecs (hkey k hk)

variable {clock : Instant} {more : List (Happening α ε)}

/-- A step of a task of another cache. -/
theorem Turn.bypasses (hturn : Turn s clock id t more s') (ht : s.task? id = some t)
    (hlt : id < s.next) (hown : s.Owned mine a) (hid : id ∉ mine)
    (hkeys : ∀ key ∈ t.keys, ∀ k, InSpace space k → key ≠ k) (hnew : Enrols mine a s s') :
    Bypasses mine a space s s' := by
  have hrefl : Bypasses mine a space s s := .refl s
  have hne : ∀ {k}, t.cache? = some k → k ≠ a := fun hk heq =>
    hid ((hown.tasks id t _ ht hk id (Or.inl rfl)).mpr heq)
  have hwrite : ∀ {w rest r ttl attempt store}, t.pass? = some ⟨w :: rest, r⟩ →
      w.attempt ttl clock s.store = (attempt, store) → AgreeOn space s.store store := by
    intro w rest r ttl attempt store hp hw
    have hkey : w.key ∈ t.keys :=
      Task.mem_keys_of_mem_unwritten (unwritten_of_pass? hp ▸ List.mem_cons_self)
    have hstore := agreeOn_attempt (hkeys w.key hkey) ttl clock s.store
    rw [hw] at hstore
    exact hstore
  cases hturn with
  | idle => exact hrefl
  | hot hc he hfresh => exact (hrefl.setCache (hne rfl) _).setTask hid _
  | cold hc => exact (hrefl.setCache (hne rfl) _).setTask hid _
  | @read cache key now r store hget =>
    have hstore := agreeOn_get (hkeys key List.mem_cons_self) clock s.store
    rw [hget] at hstore
    exact (hrefl.withStore hstore).setTask hid _
  | durable hc hfresh => exact (hrefl.setCache (hne rfl) _).setTask hid _
  | call counters hc => exact (hrefl.setCache (hne rfl) _).setTask hid _
  | fetched payload hc => exact (hrefl.setCache (hne rfl) _).setTask hid _
  | refused err => exact hrefl.setTask hid _
  | rest => exact hrefl.setTask hid _
  | hand hc => exact (hrefl.setCache (hne rfl) _).setTask hid _
  | begin hc => exact (hrefl.setCache (hne rfl) _).setTask hid _
  | @detach key now answer cache batch c hc =>
    have hnext : s.next ∉ mine := mt (mem_iff_of_detach hlt rfl hnew).mp (hne rfl)
    exact ((hrefl.add hnext _).modify (hne rfl) _).setTask hid _
  | write store hp hcache hc hw ha => exact (hrefl.withStore (hwrite hp hw)).setTask hid _
  | broke store hp hcache hc hw => exact (hrefl.withStore (hwrite hp hw)).setTask hid _
  | wrote hp hcache hc => exact (hrefl.setCache (hne hcache) _).setTask hid _
  | wake => exact hrefl.setTask hid _
  | takeOver hf hcache hslot => exact (hrefl.setSlot (hne hcache) _).setTask hid _
  | wait hf => exact hrefl.setTask hid _
  | join hf hover => exact hrefl.setTask hid _
  | take hf hcache hc => exact (hrefl.setCache (hne hcache) _).setTask hid _

omit [Payload α] in
/-- A task of another cache is given up. -/
theorem bypasses_abort (hown : s.Owned mine a) (hid : id ∉ mine) :
    Bypasses mine a space s (s.abort id) := by
  obtain ⟨hstore, hslots, hnext⟩ := abort_frame s id
  refine ⟨by rw [hslots], fun key _ => by rw [hstore], fun k hk => ?_, by rw [hnext]⟩
  refine task?_abort_of_not_stops fun ⟨⟨t, ht, _, hmem⟩, _⟩ => hid ?_
  rcases hmem with rfl | hmem
  · exact hk
  · exact (hown.mem_iff_of_joined ht hmem).mp hk

end Bypasses

/-! ## With and without other caches -/

section Numbers

variable [Payload α] [DurableStore σ] {mine : List Nat} {a : Nat} {s s' : System α ε σ} {id : Nat}

theorem Turn.next_le {clock : Instant} {t : Task α ε} {more : List (Happening α ε)}
    (hturn : Turn s clock id t more s') : s.next ≤ s'.next := by
  cases hturn with
  | detach => exact Nat.le_succ s.next
  | _ => exact Nat.le_refl s.next

theorem next_le_apply (s : System α ε σ) (ev : Event α ε σ) : s.next ≤ (s.apply ev).next := by
  have hmove := apply_move s ev
  generalize s.news ev = more at hmove
  generalize s.apply ev = s' at hmove ⊢
  cases hmove with
  | lookup hc => exact Nat.le_succ s.next
  | flush => exact Nat.le_succ s.next
  | maintain => exact Nat.le_succ s.next
  | step ht hturn => exact hturn.next_le
  | @abort id => exact Nat.le_of_eq (abort_frame s id).2.2.symm
  | _ => exact Nat.le_refl s.next

/-- Only an event that starts a task enrols one. -/
theorem mem_enrolled_iff {ev : Event α ε σ} :
    id ∈ s.enrolled a ev ↔
      id = s.next ∧ ∃ t, (s.apply ev).task? s.next = some t ∧ t.cache? = some a := by
  unfold enrolled
  rcases (s.apply ev).task? s.next with _ | t
  · simp
  · by_cases h : t.cache? = some a <;> simp [h]

/-- The tasks that are started later have greater numbers. -/
theorem next_le_of_mem_tasksOf {events : List (Event α ε σ)} (h : id ∈ s.tasksOf a events) :
    s.next ≤ id := by
  induction events generalizing s with
  | nil => cases h
  | cons ev events ih =>
    rcases List.mem_append.mp h with h | h
    · exact Nat.le_of_eq (mem_enrolled_iff.mp h).1.symm
    · exact (next_le_apply s ev).trans (ih h)

/-- If `mine` has the tasks that are started for a cache from now on, an event enrols its task
    rightly, and `mine` has the tasks that are started afterwards. -/
theorem enrols_apply {ev : Event α ε σ} {events : List (Event α ε σ)} (hs : s.Numbered [])
    (hmine : ∀ id, s.next ≤ id → (id ∈ mine ↔ id ∈ s.tasksOf a (ev :: events))) :
    Enrols mine a s (s.apply ev) ∧
      ∀ id, (s.apply ev).next ≤ id → (id ∈ mine ↔ id ∈ (s.apply ev).tasksOf a events) := by
  have hnew : ∀ t, (s.apply ev).task? s.next = some t → s.next < (s.apply ev).next :=
    (hs.apply ev).tasks s.next
  refine ⟨fun t ht => ?_, fun id hid => ?_⟩
  · have hlate : s.next ∉ (s.apply ev).tasksOf a events := fun hmem =>
      absurd (next_le_of_mem_tasksOf hmem) (Nat.not_le.mpr (hnew t ht))
    rw [hmine s.next (Nat.le_refl _), tasksOf, List.mem_append, or_iff_left hlate,
      mem_enrolled_iff, ht]
    simp
  · have hearly : id ∉ s.enrolled a ev := fun hmem => by
      obtain ⟨rfl, t, ht, -⟩ := mem_enrolled_iff.mp hmem
      exact absurd hid (Nat.not_le.mpr (hnew t ht))
    rw [hmine id ((next_le_apply s ev).trans hid), tasksOf, List.mem_append, or_iff_right hearly]

end Numbers

/-- Whether a cache has a namespace that no other one has. -/
structure SetApart (specs : List (String × CacheSettings × Instant)) (a : Nat) (space : String) :
    Prop where
  here : ∃ settings startedAt, specs[a]? = some (space, settings, startedAt)
  others : ∀ k space' settings startedAt, specs[k]? = some (space', settings, startedAt) →
    k ≠ a → space' ≠ space

/-- Two caches with different namespaces. -/
theorem setApart_pair {space space' : String} (hne : space' ≠ space)
    (settings settings' : CacheSettings) (startedAt startedAt' : Instant) :
    SetApart [(space, settings, startedAt), (space', settings', startedAt')] 0 space where
  here := ⟨settings, startedAt, rfl⟩
  others := by
    rintro (_ | _ | k) _ _ _ hk hzero
    · exact absurd rfl hzero
    · cases hk
      exact hne
    · cases hk

/-- What holds in a run of caches of which one has a namespace of its own and the tasks of
    `mine`. -/
structure Coexists (mine : List Nat) (a : Nat) (space : String)
    (specs : List (String × CacheSettings × Instant)) (s : System α ε σ) : Prop where
  setApart : SetApart specs a space
  numbered : s.Numbered []
  owned : s.Owned mine a
  sited : s.Sited specs
  length : s.slots.length = specs.length

section Coexists

variable {mine : List Nat} {a : Nat} {space : String}
  {specs : List (String × CacheSettings × Instant)} {s o : System α ε σ} {id k : Nat}
  {t : Task α ε} {key : String}

theorem cache?_of_mem_keys (h : key ∈ t.keys) : ∃ k, t.cache? = some k := by
  cases t with
  | lookup cache key now stage => exact ⟨cache, rfl⟩
  | flush cache now stage => exact ⟨cache, rfl⟩
  | pass cache p => exact ⟨cache, rfl⟩
  | maintenance cache secs flush => exact ⟨cache, rfl⟩
  | _ => exact absurd h List.not_mem_nil

theorem Coexists.exists_cache (h : s.Coexists mine a space specs) :
    ∃ c, s.cache? a = some c ∧ c.space = space := by
  obtain ⟨settings, startedAt, hspec⟩ := h.setApart.here
  have hlt : a < s.slots.length := h.length ▸ (List.getElem?_eq_some_iff.mp hspec).1
  have hc : s.cache? a = some s.slots[a].cache := by
    unfold cache?
    rw [List.getElem?_eq_getElem hlt]
    rfl
  obtain ⟨space', settings', startedAt', hspec', hset⟩ := h.sited.caches a _ hc
  cases hspec.symm.trans hspec'
  exact ⟨_, hc, hset.space⟩

/-- The tasks of the cache use keys of its namespace. -/
theorem Coexists.inSpace (h : s.Coexists mine a space specs) (hid : id ∈ mine)
    (ht : s.task? id = some t) (hkey : key ∈ t.keys) : InSpace space key := by
  obtain ⟨k, hk⟩ := cache?_of_mem_keys hkey
  obtain ⟨c, hc, rfl⟩ := h.exists_cache
  cases h.owned.eq_of_mem hid ht hk
  exact h.sited.tasks id t a c ht hk hc key hkey

/-- The tasks of other caches use other keys. -/
theorem Coexists.ne (h : s.Coexists mine a space specs) (hid : id ∉ mine)
    (ht : s.task? id = some t) (hk : t.cache? = some k) {c : TieredCache α}
    (hc : s.cache? k = some c) (hkey : key ∈ t.keys) {key' : String} (hkey' : InSpace space key') :
    key ≠ key' := by
  have hne : k ≠ a := fun heq => hid ((h.owned.tasks id t k ht hk id (Or.inl rfl)).mpr heq)
  obtain ⟨space', settings', startedAt', hspec, hset⟩ := h.sited.caches k c hc
  refine (h.sited.tasks id t k c ht hk hc key hkey).ne hkey' ?_
  rw [hset.space]
  exact h.setApart.others k space' settings' startedAt' hspec hne

variable [Payload α] [DurableStore σ]

theorem Coexists.apply (h : s.Coexists mine a space specs) {ev : Event α ε σ}
    (hnew : Enrols mine a s (s.apply ev)) : (s.apply ev).Coexists mine a space specs where
  setApart := h.setApart
  numbered := ⟨(h.numbered.apply ev).tasks, fun _ hx => absurd hx List.not_mem_nil⟩
  owned := (apply_move s ev).owned h.numbered.tasks h.owned hnew
  sited := (apply_move s ev).sited h.sited
  length := (length_slots_apply s ev).trans h.length

/-- A task whose cache is not there takes no step but waking up. -/
theorem step_of_cache?_eq_none (ht : s.task? id = some t) (hk : t.cache? = some k)
    (hc : s.cache? k = none) (clock : Instant) (outcome : Option (Except ε α)) :
    s.step clock outcome id = s ∨ t.keys = [] := by
  have hslot : s.slots[k]? = none := Option.map_eq_none_iff.mp hc
  cases t with
  | lookup cache key now stage =>
    cases hk
    exact Or.inl (by simp only [step, ht, hc])
  | flush cache now stage =>
    cases hk
    exact Or.inl (by simp only [step, ht, hslot])
  | pass cache p =>
    cases hk
    exact Or.inl (by simp only [step, ht, hc])
  | maintenance cache secs flush =>
    cases hk
    rcases flush with _ | ⟨now, stage⟩
    · exact Or.inr rfl
    · exact Or.inl (by simp only [step, ht, hslot])
  | _ => cases hk

/-- A lookup that hands its batch over starts a pass. -/
theorem task?_next_of_detaching {c : TieredCache α} {now : Instant} {answer : Except ε (Lookup α)}
    {batch : List (PendingWrite α)}
    (ht : s.task? id = some (.lookup k key now (.detaching answer batch)))
    (hc : s.cache? k = some c) (hlt : id < s.next) (clock : Instant)
    (outcome : Option (Except ε α)) :
    (s.step clock outcome id).task? s.next = some (.pass k (.ofBatch batch)) := by
  simp only [step, ht, hc, stepLookup]
  exact task?_next_detach hlt rfl _

variable [LocalStore σ]

/-- A step of a task of another cache leaves the cache alone. -/
theorem Coexists.bypasses_step (h : s.Coexists mine a space specs) (hid : id ∉ mine)
    (clock : Instant) (outcome : Option (Except ε α))
    (hnew : Enrols mine a s (s.step clock outcome id)) :
    Bypasses mine a space s (s.step clock outcome id) := by
  rcases ht : s.task? id with _ | t
  · simp only [step, ht]
    exact .refl s
  have hlt := h.numbered.tasks id t ht
  have hturn : Turn s clock id t _ (s.step clock outcome id) := step_turn ht
  -- who uses a key works for a cache that is there, or takes no step; nobody else has to do with
  -- the store
  by_cases hkeys : t.keys = []
  · exact hturn.bypasses ht hlt h.owned hid (fun key hkey => by simp [hkeys] at hkey) hnew
  obtain ⟨key, hkey⟩ := List.exists_mem_of_ne_nil _ hkeys
  obtain ⟨k, hk⟩ := cache?_of_mem_keys hkey
  rcases hc : s.cache? k with _ | c
  · rw [(step_of_cache?_eq_none ht hk hc clock outcome).resolve_right hkeys]
    exact .refl s
  · exact hturn.bypasses ht hlt h.owned hid
      (fun key hkey key' hkey' => h.ne hid ht hk hc hkey hkey') hnew

/-- Whether an event has the same effect on the cache with and without other caches. -/
structure Matches (mine : List Nat) (a : Nat) (space : String) (s o : System α ε σ)
    (ev : Event α ε σ) : Prop where
  mirrors : Mirrors mine a space (s.apply ev) (o.run (ev.only a mine).toList)
  history : o.history (ev.only a mine).toList =
    ((s.news ev).filter (·.id ∈ mine)).map (Happening.renumber (place mine))

theorem matches_of_kept {ev ev' : Event α ε σ} (honly : ev.only a mine = some ev')
    (hmirrors : Mirrors mine a space (s.apply ev) (o.apply ev'))
    (hids : ∀ x ∈ s.news ev, x.id ∈ mine)
    (hnews : o.news ev' = (s.news ev).map (Happening.renumber (place mine))) :
    Matches mine a space s o ev where
  mirrors := by
    rw [honly]
    exact hmirrors
  history := by
    rw [honly, List.filter_eq_self.mpr fun x hx => decide_eq_true (hids x hx), ← hnews]
    exact List.append_nil _

theorem Mirrors.matches_of_left (h : Mirrors mine a space s o) {ev : Event α ε σ}
    (honly : ev.only a mine = none) (hbypasses : Bypasses mine a space s (s.apply ev))
    (hids : ∀ x ∈ s.news ev, x.id ∉ mine) : Matches mine a space s o ev where
  mirrors := by
    rw [honly]
    exact h.bypass hbypasses
  history := by
    rw [honly, List.filter_eq_nil_iff.mpr fun x hx => by simpa using hids x hx]
    rfl

/-- A new task that is of the cache or of another one. -/
theorem Mirrors.matches_add (h : Mirrors mine a space s o) {ev ev' : Event α ε σ} {cache : Nat}
    (honly : ev.only a mine = if cache = a then some ev' else none) (hcache : t.cache? = some cache)
    (happly : s.apply ev = (s.add t).2) (happly' : cache = a → o.apply ev' = (o.add t).2)
    (hsame : t.renumber (place mine) = t) (hids : ∀ x ∈ s.news ev, x.id = s.next)
    (hnews : cache = a → o.news ev' = (s.news ev).map (Happening.renumber (place mine)))
    (hnew : Enrols mine a s (s.apply ev)) : Matches mine a space s o ev := by
  have hnext : s.next ∈ mine ↔ cache = a := by
    have hset := hnew t ?_
    · rw [hset, hcache, Option.some.injEq]
    · rw [happly]
      exact task?_add_self s t
  by_cases hown : cache = a
  · rw [if_pos hown] at honly
    refine matches_of_kept honly ?_ (fun x hx => ?_) (hnews hown)
    · have hadd := h.add (hnext.mpr hown) t
      rw [hsame] at hadd
      rw [happly, happly' hown]
      exact hadd
    · rw [hids x hx]
      exact hnext.mpr hown
  · rw [if_neg hown] at honly
    refine h.matches_of_left honly ?_ fun x hx => ?_
    · rw [happly]
      exact (Bypasses.refl s).add (mt hnext.mp hown) t
    · rw [hids x hx]
      exact mt hnext.mp hown

/-- An event has the same effect on the cache with and without other caches. -/
theorem Mirrors.matches (h : Mirrors mine a space s o) (hs : s.Coexists mine a space specs)
    {ev : Event α ε σ} (hdisturb : ∀ change, ev ≠ .disturb change)
    (hnew : Enrols mine a s (s.apply ev)) : Matches mine a space s o ev := by
  obtain ⟨c, hc, -⟩ := hs.exists_cache
  have hc' : o.cache? a = some c := h.cache?.trans hc
  cases ev with
  | lookup cache q now =>
    rcases hcache : s.cache? cache with _ | c₁
    · have hne : cache ≠ a := fun heq => by cases (heq ▸ hcache).symm.trans hc
      have hidle : s.apply (.lookup cache q now) = s := by
        simp only [apply, addLookup, hcache, Option.map_none, Option.getD_none]
      refine h.matches_of_left (if_neg hne) ?_ fun x hx => ?_
      · rw [hidle]
        exact .refl s
      · simp only [news, hcache] at hx
        cases hx
    · refine h.matches_add rfl (t := .lookup cache (c₁.keyFor q) now .asking) rfl ?_
        (fun hown => ?_) rfl (fun x hx => ?_) (fun hown => ?_) hnew
      · simp only [apply, addLookup, hcache, Option.map_some, Option.getD_some]
      · subst hown
        cases hc.symm.trans hcache
        simp only [apply, addLookup, hc', Option.map_some, Option.getD_some]
      · simp only [news, hcache, Option.isSome_some, if_true, List.mem_singleton] at hx
        rw [hx]
        rfl
      · subst hown
        simp only [news, hc, hc', Option.isSome_some, if_true, h.next]
        rfl
  | flush cache now =>
    exact h.matches_add rfl (t := .flush cache now .starting) rfl rfl (fun _ => rfl) rfl
      (fun _ hx => absurd hx List.not_mem_nil) (fun _ => rfl) hnew
  | maintain cache secs =>
    exact h.matches_add rfl (t := .maintenance cache secs none) rfl rfl (fun _ => rfl) rfl
      (fun _ hx => absurd hx List.not_mem_nil) (fun _ => rfl) hnew
  | invalidate cache q =>
    by_cases hown : cache = a
    · subst hown
      refine matches_of_kept (if_pos rfl) ?_ (fun _ hx => absurd hx List.not_mem_nil) rfl
      simp only [System.apply, hc, hc']
      exact h.setCache _
    · refine h.matches_of_left (if_neg hown) ?_ fun _ hx => absurd hx List.not_mem_nil
      simp only [System.apply]
      split
      · exact (Bypasses.refl s).setCache hown _
      · exact .refl s
  | step clock outcome id =>
    have hids : ∀ x ∈ s.news (.step clock outcome id), x.id = id := fun x hx => by
      rcases ht : s.task? id with _ | t
      · simp only [news, ht] at hx
        cases hx
      · exact (step_turn ht).id_of_mem x hx
    by_cases hid : id ∈ mine
    · have hstep := h.step hs.owned hid (fun t ht key hkey => hs.inSpace hid ht hkey)
        (fun key now answer batch ht => ?_) clock outcome
      · exact matches_of_kept (if_pos hid) hstep (fun x hx => hids x hx ▸ hid)
          (h.news_step hid hstep)
      · have hlt := hs.numbered.tasks id _ ht
        exact (hnew _ (task?_next_of_detaching ht hc hlt clock outcome)).mpr rfl
    · exact h.matches_of_left (if_neg hid) (hs.bypasses_step hid clock outcome hnew)
        fun x hx => hids x hx ▸ hid
  | abort id =>
    by_cases hid : id ∈ mine
    · exact matches_of_kept (if_pos hid) (h.abort hs.owned hid)
        (fun _ hx => absurd hx List.not_mem_nil) rfl
    · exact h.matches_of_left (if_neg hid) (bypasses_abort hs.owned hid)
        fun _ hx => absurd hx List.not_mem_nil
  | disturb change => exact absurd rfl (hdisturb change)

/-- With and without other caches, a run has the same effect on the cache. -/
theorem Mirrors.run (h : Mirrors mine a space s o) (hs : s.Coexists mine a space specs)
    {events : List (Event α ε σ)} (hdisturb : ∀ change, .disturb change ∉ events)
    (hmine : ∀ id, s.next ≤ id → (id ∈ mine ↔ id ∈ s.tasksOf a events)) :
    Mirrors mine a space (s.run events) (o.run (events.filterMap (Event.only a mine))) ∧
      o.history (events.filterMap (Event.only a mine)) =
        ((s.history events).filter (·.id ∈ mine)).map (Happening.renumber (place mine)) := by
  -- `mine` stays the same all along: the tasks of the cache in the whole run
  induction events generalizing s o with
  | nil => exact ⟨h, rfl⟩
  | cons ev events ih =>
    obtain ⟨hnew, hlater⟩ := enrols_apply hs.numbered hmine
    have hev := h.matches hs
      (fun change heq => hdisturb change (heq ▸ List.mem_cons_self)) hnew
    obtain ⟨hrun, hhistory⟩ := ih hev.mirrors (hs.apply hnew)
      (fun change hmem => hdisturb change (List.mem_cons_of_mem ev hmem)) hlater
    have hsplit : (ev :: events).filterMap (Event.only a mine) =
        (ev.only a mine).toList ++ events.filterMap (Event.only a mine) := by
      rw [List.filterMap_cons]
      rcases ev.only a mine with _ | ev' <;> rfl
    rw [hsplit, run_append, history_append, System.history, List.filter_append, List.map_append,
      hev.history, hhistory]
    exact ⟨hrun, rfl⟩

end Coexists

/-! ## Caches that share a store -/

/-- Whether a cache comes off in a run without other caches as it does with them. -/
structure Unaffected [DurableStore σ] [LocalStore σ] (mine : List Nat) (a : Nat) (space : String)
    (full alone : System α ε σ) (log aloneLog : List (Happening α ε)) : Prop where
  /-- Its tasks do the same, in the same order. -/
  history : aloneLog = (log.filter (·.id ∈ mine)).map (Happening.renumber (place mine))
  /-- It is in the same state, with the same counters. -/
  cache : alone.cache? a = full.cache? a
  /-- Its tasks have come equally far, with the same answers and reports. -/
  tasks : ∀ id ∈ mine,
    alone.task? (place mine id) = (full.task? id).map (Task.renumber (place mine))
  /-- Without other caches there are no other tasks. -/
  only : ∀ k t, alone.task? k = some t → ∃ id ∈ mine, k = place mine id
  /-- The store has the same under its keys. -/
  store : ∀ q : LogicalQuery, LocalStore.cell alone.store (q.key space) =
    LocalStore.cell full.store (q.key space)

theorem exists_place {mine : List Nat} {k n : Nat} (h : k < place mine n) :
    ∃ id ∈ mine, k = place mine id := by
  induction n with
  | zero => exact absurd h (Nat.not_lt_zero k)
  | succ n ih =>
    rw [place_succ] at h
    by_cases hn : n ∈ mine
    · rw [if_pos hn] at h
      by_cases hk : k < place mine n
      · exact ih hk
      · exact ⟨n, hn, by omega⟩
    · rw [if_neg hn] at h
      exact ih h

theorem mirrors_ofSpecs [DurableStore σ] [LocalStore σ] (mine : List Nat) (a : Nat)
    (space : String) (store : σ) (specs : List (String × CacheSettings × Instant)) :
    Mirrors mine a space (ofSpecs store specs : System α ε σ) (ofSpecs store specs) where
  slot := by
    unfold ofSpecs ofCaches
    rw [List.getElem?_map]
    rcases (specs.map _)[a]? with _ | c <;> rfl
  stores _ _ := rfl
  tasks id _ := by
    rw [task?_ofSpecs, task?_ofSpecs]
    rfl
  next := (Nat.count_zero _).symm

theorem coexists_ofSpecs {specs : List (String × CacheSettings × Instant)} {a : Nat}
    {space : String} (h : SetApart specs a space) (mine : List Nat) (store : σ) :
    (ofSpecs store specs : System α ε σ).Coexists mine a space specs where
  setApart := h
  numbered := numbered_ofSpecs store specs
  owned := by
    refine ⟨fun id t k ht => ?_, fun k slot hslot p hp => ?_⟩
    · rw [task?_ofSpecs] at ht
      cases ht
    · unfold ofSpecs ofCaches at hslot
      rw [List.getElem?_map] at hslot
      obtain ⟨c, -, rfl⟩ := Option.map_eq_some_iff.mp hslot
      cases hp
  sited := sited_ofSpecs store specs
  length := by
    unfold ofSpecs ofCaches
    rw [List.length_map, List.length_map]

/-- A cache whose namespace no other cache over the store has is unaffected by the others: all
    that it does, its state, its counters and its records are the same in the run that is left if
    everything asked of the others is left out. As a part of a run is a run, this is so at every
    moment. -/
theorem unaffected_run [Payload α] [DurableStore σ] [LocalStore σ] (store : σ)
    {specs : List (String × CacheSettings × Instant)} {a : Nat} {space : String}
    (hspace : SetApart specs a space)
    {events : List (Event α ε σ)} (hdisturb : ∀ change, .disturb change ∉ events) :
    Unaffected ((ofSpecs store specs).tasksOf a events) a space
      ((ofSpecs store specs).run events)
      ((ofSpecs store specs).run ((ofSpecs store specs).only a events))
      ((ofSpecs store specs).history events)
      ((ofSpecs store specs).history ((ofSpecs store specs).only a events)) := by
  have hstart := mirrors_ofSpecs (α := α) (ε := ε) ((ofSpecs store specs).tasksOf a events) a space
    store specs
  obtain ⟨hrun, hhistory⟩ := hstart.run (coexists_ofSpecs hspace _ store) hdisturb
    fun _ _ => Iff.rfl
  refine ⟨hhistory, hrun.cache?, hrun.tasks, fun k t ht => ?_, fun q => hrun.stores _ ⟨q, rfl⟩⟩
  have hlt := (numbered_run store specs ((ofSpecs store specs).only a events)).tasks k t ht
  exact exists_place (hrun.next ▸ hlt)

/-! ### Two caches that are asked the same at the same time -/

/-- Two caches, one of whose namespaces is a key of the other one. -/
def sharedSpecs : List (String × CacheSettings × Instant) :=
  [("n", ⟨60, 0, 86400, true⟩, ⟨100, 0⟩), ("n:A", ⟨60, 0, 86400, true⟩, ⟨100, 0⟩)]

/-- Both caches are asked for the same symbol, step by step in turn, and get different answers;
    their passes and a flush of the first cache mingle. -/
def sharing : List (Event String String MemoryStore) :=
  [.lookup 1 (.ofSymbols ["a"]) ⟨100, 0⟩, .lookup 0 (.ofSymbols ["a"]) ⟨100, 0⟩] ++
    [none, none, none, some "u", none, none].flatMap (fun payload =>
      [.step ⟨100, 0⟩ (payload.map fun _ => .ok "v") 0, .step ⟨100, 0⟩ (payload.map .ok) 1]) ++
    [.step ⟨101, 0⟩ none 2, .flush 0 ⟨101, 0⟩, .step ⟨101, 0⟩ none 3] ++
    [4, 3, 4, 4, 2, 4].map (.step ⟨102, 0⟩ none)

theorem unaffected_run_sharing :
    (ofSpecs .empty sharedSpecs : System String String MemoryStore).tasksOf 0 sharing =
        [1, 3, 4] ∧
      Unaffected [1, 3, 4] 0 "n" ((ofSpecs .empty sharedSpecs).run sharing)
        ((ofSpecs .empty sharedSpecs).run ((ofSpecs .empty sharedSpecs).only 0 sharing))
        ((ofSpecs .empty sharedSpecs).history sharing)
        ((ofSpecs .empty sharedSpecs).history ((ofSpecs .empty sharedSpecs).only 0 sharing)) ∧
      .answered 1 (.ok ⟨"n:A", "u", false, ⟨100, 0⟩⟩) ∈
        (ofSpecs .empty sharedSpecs).history sharing := by
  have hmine : (ofSpecs .empty sharedSpecs : System String String MemoryStore).tasksOf 0 sharing =
      [1, 3, 4] := by decide +kernel
  have hdisturb : ∀ change, Event.disturb change ∉ sharing := by simp [sharing]
  have hspace : SetApart sharedSpecs 0 "n" := setApart_pair (by decide) _ _ _ _
  have h := unaffected_run MemoryStore.empty hspace hdisturb
  rw [hmine] at h
  exact ⟨hmine, h, by decide +kernel⟩

/-- With one namespace for both, the first cache finds what the second one has written. -/
example :
    let start : System String String MemoryStore := ofSpecs .empty
      [("n", ⟨60, 0, 86400, false⟩, ⟨100, 0⟩), ("n", ⟨60, 0, 86400, false⟩, ⟨100, 0⟩)]
    let events := [.lookup 1 (.ofSymbols ["a"]) ⟨100, 0⟩] ++
      [none, none, none, some (.ok "u"), none, none, none].map (.step ⟨100, 0⟩ · 0) ++
      [.lookup 0 (.ofSymbols ["a"]) ⟨101, 0⟩] ++ List.replicate 5 (.step ⟨101, 0⟩ none 1)
    start.tasksOf 0 events = [1] ∧ .called 1 ∉ start.history events ∧
      .called 0 ∈ start.history (start.only 0 events) := by
  decide +kernel

end System

end MarketCache
