import Mathlib.Data.Nat.Count
import MarketCache.Proofs.Store.Local
import MarketCache.Proofs.System.FinalFlush
import MarketCache.Proofs.System.Namespaces

/-!
# A cache at work in two systems

A cache does the same in two systems if it is in the same state in both, if the stores agree on
the keys of its namespace, and if it has the same tasks. Tasks are numbered in the order in which
they are started, whatever cache they are of; so a task has another number in a system in which
fewer tasks were started, and all numbers of tasks have to be translated.

Main definitions:
* `place`: the number of a task in a system that has only some of the tasks.
* `Task.renumber`, `Happening.renumber`: tasks, and what they do, under other numbers.
* `System.Mirrors`: two systems agree on a cache.

Results:
* `news_renumber`: what a task does does not depend on numbers.
* `Mirrors.step`: a task of the cache takes the same step in both systems.
* `Mirrors.abort`: giving a task of the cache up has the same effect in both systems.
-/

namespace MarketCache

variable {α ε σ : Type}

/-! ## Other numbers -/

/-- The number of a task of `mine` in a system that has no tasks but these: how many of them come
    before it. -/
def place (mine : List Nat) (id : Nat) : Nat := Nat.count (· ∈ mine) id

theorem place_inj {mine : List Nat} {id id' : Nat} (hid : id ∈ mine) (hid' : id' ∈ mine)
    (h : place mine id = place mine id') : id = id' := Nat.count_injective hid hid' h

theorem place_succ (mine : List Nat) (id : Nat) :
    place mine (id + 1) = place mine id + if id ∈ mine then 1 else 0 := Nat.count_succ _ id

/-- A flush whose passes have other numbers. -/
def FlushStage.renumber (f : Nat → Nat) : FlushStage α → FlushStage α
  | .joining passes => .joining (passes.map f)
  | stage => stage

/-- A task whose passes have other numbers. -/
def Task.renumber (f : Nat → Nat) : Task α ε → Task α ε
  | .flush cache now stage => .flush cache now (stage.renumber f)
  | .maintenance cache secs (some (now, stage)) =>
    .maintenance cache secs (some (now, stage.renumber f))
  | t => t

/-- A cache whose passes in the background have other numbers. -/
def Slot.renumber (f : Nat → Nat) (slot : Slot α) : Slot α :=
  { slot with inFlight := slot.inFlight.map f }

/-- What a task does, tasks having other numbers. -/
def Happening.renumber (f : Nat → Nat) : Happening α ε → Happening α ε
  | .asked id cache q now => .asked (f id) cache q now
  | .called id => .called (f id)
  | .fetched id cache e => .fetched (f id) cache e
  | .answered id answer => .answered (f id) answer
  | .tookOver id passes => .tookOver (f id) (passes.map f)
  | .took id cache => .took (f id) cache
  | .handed id pass => .handed (f id) (f pass)
  | .attempted id w => .attempted (f id) w
  | .broke id => .broke (f id)

namespace System

section Renumber

variable (f : Nat → Nat) (t t' : Task α ε)

theorem isOver_renumber : (t.renumber f).isOver = t.isOver := by
  cases t with
  | maintenance cache secs flush => rcases flush with _ | ⟨now, stage⟩ <;> rfl
  | _ => rfl

theorem joined_renumber : (t.renumber f).joined = t.joined.map f := by
  cases t with
  | flush cache now stage => cases stage <;> rfl
  | maintenance cache secs flush => rcases flush with _ | ⟨now, _ | _ | _ | p⟩ <;> rfl
  | _ => rfl

theorem pass?_renumber : (t.renumber f).pass? = t.pass? := by
  cases t with
  | flush cache now stage => cases stage <;> rfl
  | maintenance cache secs flush => rcases flush with _ | ⟨now, _ | _ | _ | p⟩ <;> rfl
  | _ => rfl

theorem renumber_of_pass? {p : Pass α} (hp : t.pass? = some p) : t.renumber f = t := by
  rcases writer_cases hp with ⟨_, _, _, _, rfl⟩ | ⟨_, _, rfl⟩ | ⟨_, rfl⟩ | ⟨_, _, _, rfl⟩ <;> rfl

/-- What a task that writes does. -/
theorem news_of_writer {w : PendingWrite α} {rest : List (PendingWrite α)} {r : FlushReport}
    (hp : t.pass? = some ⟨w :: rest, r⟩) (id pass : Nat) :
    t.news id pass t' =
      match t' with
      | .answered answer => t.news id pass (.answered answer)
      | .aborted => [.broke id]
      | t' =>
        if t'.pass?.map (·.rest.length) = some rest.length then [.attempted id w] else [] := by
  rcases writer_cases hp with ⟨_, _, _, _, rfl⟩ | ⟨_, _, rfl⟩ | ⟨_, rfl⟩ | ⟨_, _, _, rfl⟩ <;>
    cases t' <;> rfl

/-- What a task does does not depend on numbers. -/
theorem news_renumber (id pass : Nat) :
    (t.renumber f).news (f id) (f pass) (t'.renumber f) =
      (t.news id pass t').map (Happening.renumber f) := by
  rcases hp : t.pass? with _ | ⟨_ | ⟨w, rest⟩, r⟩
  · cases t with
    | lookup cache key now stage =>
      cases stage with
      | detaching answer batch =>
        cases t' with
        | flush cache' now' stage' => rfl
        | maintenance cache' secs' flush' => rcases flush' with _ | ⟨now', stage'⟩ <;> rfl
        | _ => rfl
      | writing answer p => cases hp
      | _ =>
        cases t' with
        | lookup cache' key' now' stage' =>
          rcases stage' with _ | _ | _ | _ | ⟨_ | _⟩ | _ | _ <;> rfl
        | maintenance cache' secs' flush' => rcases flush' with _ | ⟨now', stage'⟩ <;> rfl
        | _ => rfl
    | flush cache now stage =>
      cases stage with
      | writing p => cases hp
      | _ =>
        cases t' with
        | flush cache' now' stage' => cases stage' <;> rfl
        | maintenance cache' secs' flush' => rcases flush' with _ | ⟨now', stage'⟩ <;> rfl
        | _ => rfl
    | pass cache p => cases hp
    | maintenance cache secs flush =>
      rcases flush with _ | ⟨now, _ | _ | _ | p⟩
      case some.writing => cases hp
      all_goals
        cases t' with
        | maintenance cache' secs' flush' => rcases flush' with _ | ⟨now', _ | _ | _ | _⟩ <;> rfl
        | _ => rfl
    | _ =>
      cases t' with
      | maintenance cache' secs' flush' => rcases flush' with _ | ⟨now', stage'⟩ <;> rfl
      | _ => rfl
  · rw [renumber_of_pass? f t hp]
    rcases writer_cases hp with ⟨_, _, _, _, rfl⟩ | ⟨_, _, rfl⟩ | ⟨_, rfl⟩ | ⟨_, _, _, rfl⟩ <;>
      cases t' with
      | maintenance cache' secs' flush' => rcases flush' with _ | ⟨now', _ | _ | _ | _⟩ <;> rfl
      | _ => rfl
  · rw [renumber_of_pass? f t hp, news_of_writer _ _ hp, news_of_writer _ _ hp]
    have hattempt : ∀ t'' : Task α ε, t''.pass? = t'.pass? →
        (if t''.pass?.map (·.rest.length) = some rest.length then [Happening.attempted (f id) w]
          else []) = (if t'.pass?.map (·.rest.length) = some rest.length then
            [Happening.attempted (ε := ε) id w] else []).map (Happening.renumber f) := by
      intro t'' hsame
      rw [hsame, apply_ite (List.map (Happening.renumber f))]
      rfl
    cases t' with
    | answered answer =>
      rcases writer_cases hp with ⟨_, _, _, _, rfl⟩ | ⟨_, _, rfl⟩ | ⟨_, rfl⟩ | ⟨_, _, _, rfl⟩ <;>
        rfl
    | aborted => rfl
    | maintenance cache' secs' flush' =>
      rcases flush' with _ | ⟨now', stage'⟩
      · exact hattempt _ rfl
      · exact hattempt _ (pass?_renumber f _)
    | flush cache' now' stage' => exact hattempt _ (pass?_renumber f _)
    | _ => exact hattempt _ rfl

end Renumber

/-! ## The tasks of a cache -/

/-- Whether the tasks of a cache, and the passes that they wait for or that nobody waits for yet,
    are those of `mine`. -/
structure Owned (mine : List Nat) (a : Nat) (s : System α ε σ) : Prop where
  tasks : ∀ id t k, s.task? id = some t → t.cache? = some k →
    ∀ p, p = id ∨ p ∈ t.joined → (p ∈ mine ↔ k = a)
  inFlight : ∀ k slot, s.slots[k]? = some slot → ∀ p ∈ slot.inFlight, (p ∈ mine ↔ k = a)

theorem Owned.eq_of_mem {mine : List Nat} {a : Nat} {s : System α ε σ} (h : s.Owned mine a)
    {id k : Nat} {t : Task α ε} (hid : id ∈ mine) (ht : s.task? id = some t)
    (hcache : t.cache? = some k) : k = a :=
  (h.tasks id t k ht hcache id (Or.inl rfl)).mp hid

theorem cache?_of_joined {t : Task α ε} {p : Nat} (hp : p ∈ t.joined) : ∃ k, t.cache? = some k := by
  cases t with
  | flush cache now stage => exact ⟨cache, rfl⟩
  | maintenance cache secs flush => exact ⟨cache, rfl⟩
  | _ => exact absurd hp List.not_mem_nil

/-- Who waits for a task of the cache is one, and the other way round. -/
theorem Owned.mem_iff_of_joined {mine : List Nat} {a : Nat} {s : System α ε σ}
    (h : s.Owned mine a) {id p : Nat} {t : Task α ε} (ht : s.task? id = some t)
    (hp : p ∈ t.joined) : p ∈ mine ↔ id ∈ mine := by
  obtain ⟨k, hcache⟩ := cache?_of_joined hp
  rw [h.tasks id t k ht hcache p (Or.inr hp), h.tasks id t k ht hcache id (Or.inl rfl)]

/-! ## Stores that agree on a namespace -/

section Agree

variable [DurableStore σ] [LocalStore σ] {space : String} {store store' : σ}

/-- Whether two stores have the same under every key of a namespace. -/
def AgreeOn (space : String) (store store' : σ) : Prop :=
  ∀ key, InSpace space key → LocalStore.cell store' key = LocalStore.cell store key

theorem AgreeOn.get (h : AgreeOn space store store') {key : String} (hkey : InSpace space key)
    (clock : Instant) :
    (DurableStore.get store' clock key).1 = (DurableStore.get store clock key).1 ∧
      AgreeOn space (DurableStore.get store clock key).2 (DurableStore.get store' clock key).2 := by
  obtain ⟨hresult, hcell⟩ := LocalStore.get_congr clock (h key hkey)
  refine ⟨hresult, fun k hk => ?_⟩
  by_cases hne : key = k
  · exact hne ▸ hcell
  · rw [LocalStore.cell_get_of_ne clock hne, LocalStore.cell_get_of_ne clock hne, h k hk]

theorem AgreeOn.put (h : AgreeOn space store store') {key : String} (hkey : InSpace space key)
    (clock : Instant) (value : Bytes) (ttlSecs : UInt64) :
    (DurableStore.put store' clock key value ttlSecs).1 =
        (DurableStore.put store clock key value ttlSecs).1 ∧
      AgreeOn space (DurableStore.put store clock key value ttlSecs).2
        (DurableStore.put store' clock key value ttlSecs).2 := by
  obtain ⟨hresult, hcell⟩ := LocalStore.put_congr clock value ttlSecs (h key hkey)
  refine ⟨hresult, fun k hk => ?_⟩
  by_cases hne : key = k
  · exact hne ▸ hcell
  · rw [LocalStore.cell_put_of_ne clock value ttlSecs hne,
      LocalStore.cell_put_of_ne clock value ttlSecs hne, h k hk]

variable [Payload α]

theorem AgreeOn.attempt (h : AgreeOn space store store') {w : PendingWrite α}
    (hw : InSpace space w.key) (ttlSecs : UInt64) (clock : Instant) :
    (w.attempt ttlSecs clock store').1 = (w.attempt ttlSecs clock store).1 ∧
      AgreeOn space (w.attempt ttlSecs clock store).2 (w.attempt ttlSecs clock store').2 := by
  unfold PendingWrite.attempt
  rcases w.entry.encode? with _ | bytes
  · exact ⟨rfl, h⟩
  · obtain ⟨hresult, hstore⟩ := h.put hw clock bytes ttlSecs
    exact ⟨congrArg PutOutcome.toAttempt hresult, hstore⟩

theorem AgreeOn.passStep (h : AgreeOn space store store') {p : Pass α}
    (hrest : ∀ w ∈ p.rest, InSpace space w.key) (ttlSecs : UInt64) (clock : Instant) :
    ∃ progress after after', p.step ttlSecs clock store = (progress, after) ∧
      p.step ttlSecs clock store' = (progress, after') ∧ AgreeOn space after after' := by
  unfold Pass.step
  rcases hp : p.rest with _ | ⟨w, rest⟩
  · exact ⟨_, _, _, rfl, rfl, h⟩
  · have hw : InSpace space w.key := hrest w (hp ▸ List.mem_cons_self)
    obtain ⟨hresult, hstore⟩ := h.attempt hw ttlSecs clock
    simp only [hresult]
    exact ⟨_, _, _, rfl, rfl, hstore⟩

end Agree

/-! ## Systems that agree on a cache -/

/-- Whether a system agrees with another one on a cache: the cache is in the same state, the
    stores agree on its namespace, and the tasks of `mine` are the same under the numbers that
    they have in a system without other tasks. -/
structure Mirrors [DurableStore σ] [LocalStore σ] (mine : List Nat) (a : Nat) (space : String)
    (s o : System α ε σ) : Prop where
  slot : o.slots[a]? = s.slots[a]?.map (Slot.renumber (place mine))
  stores : AgreeOn space s.store o.store
  tasks : ∀ id ∈ mine, o.task? (place mine id) = (s.task? id).map (Task.renumber (place mine))
  next : o.next = place mine s.next

section Mirrors

variable [DurableStore σ] [LocalStore σ] {mine : List Nat} {a : Nat} {space : String}
  {s o : System α ε σ} {id : Nat}

theorem Mirrors.cache? (h : Mirrors mine a space s o) : o.cache? a = s.cache? a := by
  unfold System.cache?
  rw [h.slot]
  rcases s.slots[a]? with _ | slot <;> rfl

theorem Mirrors.isOver (h : Mirrors mine a space s o) (hid : id ∈ mine) :
    o.isOver (place mine id) = s.isOver id := by
  unfold System.isOver
  rw [h.tasks id hid]
  rcases s.task? id with _ | t
  · rfl
  · exact isOver_renumber _ t

theorem Mirrors.withStore (h : Mirrors mine a space s o) {store store' : σ}
    (hstores : AgreeOn space store store') :
    Mirrors mine a space { s with store } { o with store := store' } :=
  ⟨h.slot, hstores, h.tasks, h.next⟩

theorem Mirrors.setTask (h : Mirrors mine a space s o) (hid : id ∈ mine) (t : Task α ε) :
    Mirrors mine a space (s.setTask id t)
      (o.setTask (place mine id) (t.renumber (place mine))) where
  slot := h.slot
  stores := h.stores
  tasks k hk := by
    rw [task?_setTask, task?_setTask]
    by_cases heq : id = k
    · rw [if_pos heq, if_pos (congrArg (place mine) heq)]
      rfl
    · rw [if_neg heq, if_neg fun hplace => heq (place_inj hid hk hplace), h.tasks k hk]
  next := h.next

theorem Mirrors.modify (h : Mirrors mine a space s o) {f g : Slot α → Slot α}
    (hfg : ∀ slot, g (slot.renumber (place mine)) = (f slot).renumber (place mine)) :
    Mirrors mine a space { s with slots := s.slots.modify a f }
      { o with slots := o.slots.modify a g } where
  slot := by
    rw [List.getElem?_modify, List.getElem?_modify, h.slot]
    rcases s.slots[a]? with _ | slot
    · rfl
    · simp only [if_true, Option.map_eq_map, Option.map_some, hfg]
  stores := h.stores
  tasks := h.tasks
  next := h.next

theorem Mirrors.setCache (h : Mirrors mine a space s o) (c : TieredCache α) :
    Mirrors mine a space (s.setCache a c) (o.setCache a c) := h.modify fun _ => rfl

theorem Mirrors.setSlot (h : Mirrors mine a space s o) {slot : Slot α}
    (hslot : s.slots[a]? = some slot) (slot' : Slot α) :
    Mirrors mine a space (s.setSlot a slot') (o.setSlot a (slot'.renumber (place mine))) where
  slot := by
    have hthere : o.slots[a]? = some (slot.renumber (place mine)) := by
      rw [h.slot, hslot]
      rfl
    unfold System.setSlot
    rw [List.getElem?_set_self (List.getElem?_eq_some_iff.mp hslot).1,
      List.getElem?_set_self (List.getElem?_eq_some_iff.mp hthere).1]
    rfl
  stores := h.stores
  tasks := h.tasks
  next := h.next

theorem Mirrors.add (h : Mirrors mine a space s o) (hnext : s.next ∈ mine) (t : Task α ε) :
    Mirrors mine a space (s.add t).2 (o.add (t.renumber (place mine))).2 := by
  have hset := h.setTask hnext t
  rw [← h.next] at hset
  refine ⟨hset.slot, hset.stores, hset.tasks, ?_⟩
  show o.next + 1 = place mine (s.next + 1)
  rw [place_succ, if_pos hnext, h.next]

/-! ### Steps -/

variable [Payload α] {clock now : Instant} {outcome : Option (Except ε α)}

theorem Mirrors.stepPass (h : Mirrors mine a space s o) (c : TieredCache α) {p : Pass α}
    (hrest : ∀ w ∈ p.rest, InSpace space w.key) (clock : Instant) :
    ∃ progress s' o', s.stepPass a c clock p = (progress, s') ∧
      o.stepPass a c clock p = (progress, o') ∧ Mirrors mine a space s' o' := by
  obtain ⟨progress, store, store', hs, ho, hstores⟩ :=
    h.stores.passStep hrest c.writeBack.ttlSecs clock
  have hstored : Mirrors mine a space { s with store } { o with store := store' } :=
    h.withStore hstores
  simp only [System.stepPass, hs, ho]
  cases progress with
  | finished r => exact ⟨_, _, _, rfl, rfl, hstored.setCache (c.settle r)⟩
  | further p' => exact ⟨_, _, _, rfl, rfl, hstored⟩
  | aborted => exact ⟨_, _, _, rfl, rfl, hstored⟩

theorem Mirrors.stepLookup (h : Mirrors mine a space s o) (hid : id ∈ mine) (c : TieredCache α)
    {key : String} {stage : LookupStage α ε}
    (hkeys : ∀ k ∈ (Task.lookup a key now stage).keys, InSpace space k)
    (hnext : ∀ answer batch, stage = .detaching answer batch → s.next ∈ mine) :
    Mirrors mine a space (s.stepLookup id a c key now clock outcome stage)
      (o.stepLookup (place mine id) a c key now clock outcome stage) := by
  -- a lookup goes on to a stage, the cache having changed
  have hset : ∀ (c : TieredCache α) (stage : LookupStage α ε),
      Mirrors mine a space ((s.setCache a c).setTask id (.lookup a key now stage))
        ((o.setCache a c).setTask (place mine id) (.lookup a key now stage)) :=
    fun c stage => (h.setCache c).setTask hid _
  cases stage with
  | asking =>
    simp only [System.stepLookup]
    rcases c.checkHot key now with ⟨_ | e, c'⟩
    · exact hset c' .reading
    · exact hset c' (.closing (.ok (.cached e)))
  | reading =>
    obtain ⟨hresult, hstores⟩ := h.stores.get (hkeys key List.mem_cons_self) clock
    simp only [System.stepLookup, hresult]
    exact (h.withStore hstores).setTask hid _
  | judging r =>
    simp only [System.stepLookup]
    rcases c.checkDurable r now with ⟨_ | e, c'⟩
    · exact hset c' .fetching
    · exact hset c' (.closing (.ok (.cached e)))
  | fetching =>
    rcases outcome with _ | err | payload
    · exact h
    · exact h.setTask hid (.lookup a key now (.closing (.error err)))
    · exact hset (c.storeFetched ⟨key, payload, now⟩)
        (.closing (.ok (.fetched ⟨key, payload, now⟩)))
  | closing answer =>
    simp only [System.stepLookup]
    rcases c.takeDue? now with _ | ⟨batch, c'⟩
    · exact h.setTask hid (.answered answer)
    · exact hset c' (if c'.backgroundFlush then .detaching answer batch
        else .writing answer (.ofBatch batch))
  | detaching answer batch =>
    have hadd := h.add (hnext answer batch rfl) (.pass a (.ofBatch batch))
    refine Mirrors.setTask (hadd.modify fun slot => ?_) hid (.answered answer)
    rw [h.next, Slot.renumber, Slot.renumber, List.map_append]
    rfl
  | writing answer p =>
    have hwrites : ∀ w ∈ p.rest, InSpace space w.key := fun w hw =>
      hkeys w.key (Task.mem_keys_of_mem_unwritten hw)
    obtain ⟨progress, s', o', hs, ho, hpass⟩ := h.stepPass c hwrites clock
    simp only [System.stepLookup, hs, ho]
    cases progress with
    | finished r => exact hpass.setTask hid (.answered answer)
    | further p' => exact hpass.setTask hid (.lookup a key now (.writing answer p'))
    | aborted => exact hpass.setTask hid .aborted

theorem Mirrors.stepFlush (h : Mirrors mine a space s o) {slot : Slot α}
    (hslot : s.slots[a]? = some slot) {stage : FlushStage α}
    (hwrites : ∀ w ∈ stage.unwritten, InSpace space w.key)
    (hjoined : ∀ passes, stage = .joining passes → ∀ p ∈ passes, p ∈ mine) (now clock : Instant) :
    ∃ next s' o', s.stepFlush a slot now clock stage = (s', next) ∧
      o.stepFlush a (slot.renumber (place mine)) now clock (stage.renumber (place mine)) =
        (o', next.map (Sum.map (FlushStage.renumber (place mine)) fun r => r)) ∧
      Mirrors mine a space s' o' := by
  cases stage with
  | starting => exact ⟨_, _, _, rfl, rfl, h.setSlot hslot { slot with inFlight := [] }⟩
  | joining passes =>
    have hover : (passes.map (place mine)).all o.isOver = passes.all s.isOver := by
      rw [List.all_map, Bool.eq_iff_iff, List.all_eq_true, List.all_eq_true]
      exact forall₂_congr fun p hp => by rw [Function.comp, h.isOver (hjoined passes rfl p hp)]
    simp only [System.stepFlush, FlushStage.renumber, hover]
    refine ⟨_, _, _, rfl, ?_, h⟩
    split <;> rfl
  | taking => exact ⟨_, _, _, rfl, rfl, h.setCache (slot.cache.takeAll now).2⟩
  | writing p =>
    obtain ⟨progress, s', o', hs, ho, hpass⟩ := h.stepPass slot.cache (p := p) hwrites clock
    have ho' : o.stepPass a (slot.renumber (place mine)).cache clock p = (progress, o') := ho
    simp only [System.stepFlush, FlushStage.renumber, hs, ho']
    cases progress with
    | finished r => exact ⟨_, _, _, rfl, rfl, hpass⟩
    | further p' => exact ⟨_, _, _, rfl, rfl, hpass⟩
    | aborted => exact ⟨_, _, _, rfl, rfl, hpass⟩

/-- A task of the cache takes the same step in both systems. -/
theorem Mirrors.step (h : Mirrors mine a space s o) (hown : s.Owned mine a) (hid : id ∈ mine)
    (hkeys : ∀ t, s.task? id = some t → ∀ key ∈ t.keys, InSpace space key)
    (hnext : ∀ key now answer batch,
      s.task? id = some (.lookup a key now (.detaching answer batch)) → s.next ∈ mine)
    (clock : Instant) (outcome : Option (Except ε α)) :
    Mirrors mine a space (s.step clock outcome id) (o.step clock outcome (place mine id)) := by
  have hthere := h.tasks id hid
  rcases ht : s.task? id with _ | t
  · rw [ht] at hthere
    simp only [System.step, ht, hthere, Option.map_none]
    exact h
  rw [ht] at hthere
  have howner : ∀ k, t.cache? = some k → k = a := fun k => hown.eq_of_mem hid ht
  have hjoined : ∀ p ∈ t.joined, p ∈ mine := fun p hp => (hown.mem_iff_of_joined ht hp).mpr hid
  have hkeys : ∀ key ∈ t.keys, InSpace space key := hkeys t ht
  have hwrites : ∀ w ∈ t.unwritten, InSpace space w.key := fun w hw =>
    hkeys w.key (Task.mem_keys_of_mem_unwritten hw)
  cases t with
  | lookup cache key now stage =>
    cases howner cache rfl
    simp only [System.step, ht, hthere, Option.map_some, Task.renumber, h.cache?]
    rcases s.cache? a with _ | c
    · exact h
    · exact h.stepLookup hid c hkeys fun answer batch hstage =>
        hnext key now answer batch (hstage ▸ ht)
  | flush cache now stage =>
    cases howner cache rfl
    have hstage : (Task.flush a now stage : Task α ε).unwritten = stage.unwritten :=
      unwritten_of_flushing? rfl
    rw [hstage] at hwrites
    simp only [System.step, ht, hthere, Option.map_some, Task.renumber, h.slot]
    rcases hslot : s.slots[a]? with _ | slot
    · exact h
    · obtain ⟨next, s', o', hs, ho, hflush⟩ := h.stepFlush hslot hwrites
        (fun passes hstage p hp => hjoined p (hstage ▸ hp)) now clock
      simp only [Option.map_some, hs, ho]
      rcases next with _ | stage' | r
      · exact hflush.setTask hid .aborted
      · exact hflush.setTask hid (.flush a now stage')
      · exact hflush.setTask hid (.flushed r)
  | pass cache p =>
    cases howner cache rfl
    simp only [System.step, ht, hthere, Option.map_some, Task.renumber, h.cache?]
    rcases s.cache? a with _ | c
    · exact h
    · obtain ⟨progress, s', o', hs, ho, hpass⟩ := h.stepPass c (p := p) hwrites clock
      simp only [hs, ho]
      cases progress with
      | finished r => exact hpass.setTask hid .ended
      | further p' => exact hpass.setTask hid (.pass a p')
      | aborted => exact hpass.setTask hid .aborted
  | maintenance cache secs flush =>
    cases howner cache rfl
    rcases flush with _ | ⟨now, stage⟩
    · simp only [System.step, ht, hthere, Option.map_some, Task.renumber]
      exact h.setTask hid (.maintenance a secs (some (clock, .starting)))
    · have hstage : (Task.maintenance a secs (some (now, stage)) : Task α ε).unwritten =
          stage.unwritten := unwritten_of_flushing? rfl
      rw [hstage] at hwrites
      simp only [System.step, ht, hthere, Option.map_some, Task.renumber, h.slot]
      rcases hslot : s.slots[a]? with _ | slot
      · exact h
      · obtain ⟨next, s', o', hs, ho, hflush⟩ := h.stepFlush hslot hwrites
          (fun passes hstage p hp => hjoined p (hstage ▸ hp)) now clock
        simp only [Option.map_some, hs, ho]
        rcases next with _ | stage' | r
        · exact hflush.setTask hid .aborted
        · exact hflush.setTask hid (.maintenance a secs (some (now, stage')))
        · exact hflush.setTask hid (.maintenance a secs none)
  | _ => simpa only [System.step, ht, hthere, Option.map_some, Task.renumber] using h

/-- What happens in the step is the same, too. -/
theorem Mirrors.news_step (h : Mirrors mine a space s o) (hid : id ∈ mine)
    (hafter : Mirrors mine a space (s.step clock outcome id)
      (o.step clock outcome (place mine id))) :
    o.news (.step clock outcome (place mine id)) =
      (s.news (.step clock outcome id)).map (Happening.renumber (place mine)) := by
  simp only [System.news, h.tasks id hid, hafter.tasks id hid, h.next]
  rcases s.task? id with _ | t
  · rfl
  · rcases (s.step clock outcome id).task? id with _ | t'
    · rfl
    · exact news_renumber (place mine) t t' id s.next

omit [Payload α] in
/-- Giving a task of the cache up ends the same tasks in both systems. -/
theorem Mirrors.stops_iff (h : Mirrors mine a space s o) (hown : s.Owned mine a) (hid : id ∈ mine)
    {k : Nat} (hk : k ∈ mine) : o.Stops (place mine id) (place mine k) ↔ s.Stops id k := by
  have hlive : ∀ k ∈ mine, (∃ t, o.task? (place mine k) = some t ∧ t.isOver = false) ↔
      ∃ t, s.task? k = some t ∧ t.isOver = false := fun k hk => by
    rw [← isOver_eq_false_iff, ← isOver_eq_false_iff, h.isOver hk]
  refine and_congr ?_ (hlive k hk)
  rw [h.tasks id hid]
  rcases ht : s.task? id with _ | t
  · simp
  · have hjoined : place mine k ∈ t.joined.map (place mine) ↔ k ∈ t.joined := by
      refine ⟨fun hmem => ?_, List.mem_map_of_mem⟩
      obtain ⟨p, hp, heq⟩ := List.mem_map.mp hmem
      exact place_inj ((hown.mem_iff_of_joined ht hp).mpr hid) hk heq ▸ hp
    have hself : place mine k = place mine id ↔ k = id :=
      ⟨place_inj hk hid, congrArg (place mine)⟩
    simp only [Option.map_some, Option.some.injEq, exists_eq_left', isOver_renumber,
      joined_renumber, hjoined, hself]

omit [Payload α] in
/-- Giving a task of the cache up has the same effect in both systems. -/
theorem Mirrors.abort (h : Mirrors mine a space s o) (hown : s.Owned mine a) (hid : id ∈ mine) :
    Mirrors mine a space (s.abort id) (o.abort (place mine id)) := by
  obtain ⟨hstore, hslots, hnext⟩ := abort_frame s id
  obtain ⟨hstore', hslots', hnext'⟩ := abort_frame o (place mine id)
  refine ⟨?_, ?_, fun k hk => ?_, ?_⟩
  · rw [hslots, hslots', h.slot]
  · rw [hstore, hstore']
    exact h.stores
  · by_cases hstops : s.Stops id k
    · rw [task?_abort_of_stops hstops,
        task?_abort_of_stops ((h.stops_iff hown hid hk).mpr hstops)]
      rfl
    · rw [task?_abort_of_not_stops hstops,
        task?_abort_of_not_stops (mt (h.stops_iff hown hid hk).mp hstops), h.tasks k hk]
  · rw [hnext, hnext', h.next]

end Mirrors

end System

end MarketCache
