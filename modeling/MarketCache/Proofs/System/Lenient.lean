import MarketCache.Proofs.System.Failures
import MarketCache.Store.Faulty
import MarketCache.Store.Memory

/-!
# Failed reads are absent entries

A store can be put behind another one that answers "absent" wherever the first one refuses a
read or has bytes that are no entry. Whatever the caches do over the one store, they do over the
other: the same lookups ask the provider and get the same answers, the same entries are hot and
wait, and the same writes are asked for. All that is different is a counter.

Main definitions:
* `LenientStore`: the other store.
* `System.lenient`, `Event.lenient`: a system and what moves it on, over the other store.

Results:
* `apply_lenient`, `run_lenient`: a run over the other store is the image of the run.
* `history_lenient`, `writes_lenient`: the two runs look the same.
* `failed_reads_absent`: all of it together, with the counter.
-/

namespace MarketCache

variable {α ε σ : Type}

/-! ## The lenient store -/

/-- A store, seen by caches of payloads in `α`, that answers "absent" where `inner` fails. -/
structure LenientStore (α σ : Type) where
  inner : σ

/-- The answer that stands for a failed one. -/
def lenientResult (α : Type) [Payload α] (r : Except StoreError (Option Bytes)) :
    Except StoreError (Option Bytes) :=
  match (DurableRead.ofBytes r : DurableRead α) with
  | .failed => .ok none
  | _ => r

instance [Payload α] [DurableStore σ] : DurableStore (LenientStore α σ) where
  get s now key :=
    (lenientResult α (DurableStore.get s.inner now key).1, ⟨(DurableStore.get s.inner now key).2⟩)
  put s now key value ttlSecs :=
    ((DurableStore.put s.inner now key value ttlSecs).1,
      ⟨(DurableStore.put s.inner now key value ttlSecs).2⟩)

/-- The read over the lenient store. -/
def StoreRead.lenient (α : Type) [Payload α] (r : StoreRead) : StoreRead :=
  { r with result := lenientResult α r.result }

/-- What a read amounts to over the lenient store. -/
def DurableRead.lenient : DurableRead α → DurableRead α
  | .failed => .absent
  | r => r

theorem ofBytes_lenientResult [Payload α] (r : Except StoreError (Option Bytes)) :
    DurableRead.ofBytes (lenientResult α r) = (DurableRead.ofBytes r : DurableRead α).lenient := by
  unfold lenientResult
  rcases hr : (DurableRead.ofBytes r : DurableRead α) with _ | e | _
  · exact hr
  · exact hr
  · rfl

/-! ## The image of a system -/

/-- The stage of a lookup over the lenient store. -/
def LookupStage.lenient : LookupStage α ε → LookupStage α ε
  | .judging r => .judging r.lenient
  | stage => stage

/-- The task over the lenient store. -/
def Task.lenient : Task α ε → Task α ε
  | .lookup cache key now stage => .lookup cache key now stage.lenient
  | t => t

/-- The cache with no failed read counted. -/
def TieredCache.lenient (c : TieredCache α) : TieredCache α :=
  { c with counters := { c.counters with durableErrors := 0 } }

/-- The slot over the lenient store. -/
def Slot.lenient (slot : Slot α) : Slot α := { slot with cache := slot.cache.lenient }

namespace System

/-- The system over the lenient store. -/
def lenient (s : System α ε σ) : System α ε (LenientStore α σ) where
  store := ⟨s.store⟩
  slots := s.slots.map Slot.lenient
  tasks := s.tasks.map fun _ t => t.lenient
  next := s.next

/-- The event over the lenient store. -/
def Event.lenient : Event α ε σ → Event α ε (LenientStore α σ)
  | .lookup cache q now => .lookup cache q now
  | .flush cache now => .flush cache now
  | .maintain cache intervalSecs => .maintain cache intervalSecs
  | .invalidate cache q => .invalidate cache q
  | .step clock outcome id => .step clock outcome id
  | .abort id => .abort id
  | .disturb change => .disturb fun s => ⟨change s.inner⟩

section Parts

variable {s : System α ε σ}

@[simp] theorem task?_lenient (s : System α ε σ) (id : Nat) :
    s.lenient.task? id = (s.task? id).map Task.lenient := by
  simp [task?, lenient]

@[simp] theorem slots_lenient (s : System α ε σ) (cache : Nat) :
    s.lenient.slots[cache]? = s.slots[cache]?.map Slot.lenient := by
  simp [lenient]

@[simp] theorem cache?_lenient (s : System α ε σ) (cache : Nat) :
    s.lenient.cache? cache = (s.cache? cache).map TieredCache.lenient := by
  unfold cache?
  rw [slots_lenient]
  rcases s.slots[cache]? with _ | slot <;> rfl

theorem lenient_setTask (s : System α ε σ) (id : Nat) (t : Task α ε) :
    (s.setTask id t).lenient = s.lenient.setTask id t.lenient := by
  unfold setTask lenient
  congr 1
  refine Std.ExtTreeMap.ext_getElem? fun k => ?_
  simp only [Std.ExtTreeMap.getElem?_map, Std.ExtTreeMap.getElem?_insert]
  split <;> rfl

/-- A slot of the image is changed as the slot is. -/
theorem map_modify_lenient (slots : List (Slot α)) (cache : Nat) {f g : Slot α → Slot α}
    (h : ∀ slot, (f slot).lenient = g slot.lenient) :
    (slots.modify cache f).map Slot.lenient = (slots.map Slot.lenient).modify cache g := by
  refine List.ext_getElem? fun k => ?_
  simp only [List.getElem?_map, List.getElem?_modify]
  rcases slots[k]? with _ | slot
  · rfl
  · by_cases hk : cache = k
    · simp only [hk, if_true, Option.map_eq_map, Option.map_some, h]
    · simp only [hk, if_false, Option.map_eq_map, Option.map_some]

theorem lenient_setCache (s : System α ε σ) (cache : Nat) (c : TieredCache α) :
    (s.setCache cache c).lenient = s.lenient.setCache cache c.lenient := by
  unfold setCache lenient
  simp only [System.mk.injEq, true_and, and_true]
  exact map_modify_lenient s.slots cache fun _ => rfl

/-- A cache to which another pass in the background belongs. -/
theorem lenient_enlist (s : System α ε σ) (cache pass : Nat) :
    ({ s with slots := s.slots.modify cache fun slot =>
      { slot with inFlight := slot.inFlight ++ [pass] } } : System α ε σ).lenient =
      { s.lenient with slots := s.lenient.slots.modify cache fun slot =>
        { slot with inFlight := slot.inFlight ++ [pass] } } := by
  unfold lenient
  simp only [System.mk.injEq, true_and, and_true]
  exact map_modify_lenient s.slots cache fun _ => rfl

theorem lenient_setSlot (s : System α ε σ) (cache : Nat) (slot : Slot α) :
    (s.setSlot cache slot).lenient = s.lenient.setSlot cache slot.lenient := by
  unfold setSlot lenient
  rw [List.map_set]

theorem lenient_add (s : System α ε σ) (t : Task α ε) :
    (s.add t).2.lenient = (s.lenient.add t.lenient).2 := by
  have hset := lenient_setTask s s.next t
  unfold add
  rw [show s.lenient.next = s.next from rfl, ← hset]
  rfl

theorem isOver_lenient (t : Task α ε) : t.lenient.isOver = t.isOver := by
  cases t <;> rfl

theorem joined_lenient (t : Task α ε) : t.lenient.joined = t.joined := by
  cases t <;> rfl

theorem owner_lenient (t : Task α ε) : t.lenient.cache? = t.cache? := by
  cases t <;> rfl

theorem pass?_lenient (t : Task α ε) : t.lenient.pass? = t.pass? := by
  cases t with
  | lookup cache key now stage => cases stage <;> rfl
  | _ => rfl

theorem lenient_isOver (s : System α ε σ) (id : Nat) : s.lenient.isOver id = s.isOver id := by
  unfold isOver
  rw [task?_lenient]
  rcases s.task? id with _ | t
  · rfl
  · exact isOver_lenient t

end Parts

/-! ## Steps -/

section Steps

/-- Giving a task up over the lenient store is the image of giving it up. -/
theorem abort_lenient (s : System α ε σ) (id : Nat) :
    s.lenient.abort id = (s.abort id).lenient := by
  have hfold : ∀ (passes : List Nat) (s : System α ε σ),
      passes.foldl (fun s p => if s.isOver p then s else s.setTask p .aborted) s.lenient =
        (passes.foldl (fun s p => if s.isOver p then s else s.setTask p .aborted) s).lenient := by
    intro passes
    induction passes with
    | nil => exact fun s => rfl
    | cons p passes ih =>
      intro s
      rw [List.foldl_cons, List.foldl_cons, lenient_isOver]
      split
      · exact ih s
      · exact (congrArg (passes.foldl _) (lenient_setTask s p .aborted).symm).trans
          (ih (s.setTask p .aborted))
  unfold abort
  rw [task?_lenient]
  rcases s.task? id with _ | t
  · rfl
  · simp only [Option.map_some, isOver_lenient, joined_lenient]
    split
    · rfl
    · exact (congrArg (setTask · id .aborted) (hfold t.joined s)).trans
        (lenient_setTask _ id .aborted).symm

theorem checkHot_lenient (c : TieredCache α) (key : String) (now : Instant) :
    c.lenient.checkHot key now = ((c.checkHot key now).1, (c.checkHot key now).2.lenient) := by
  unfold TieredCache.checkHot
  rw [show c.lenient.hot = c.hot from rfl, show c.lenient.policy = c.policy from rfl]
  rcases c.hot.get? key with _ | e
  · rfl
  · by_cases hfresh : c.policy.isFresh e now = true
    · simp only [if_pos hfresh]
      rfl
    · simp only [if_neg hfresh]

theorem checkDurable_lenient (c : TieredCache α) (r : DurableRead α) (now : Instant) :
    c.lenient.checkDurable r.lenient now =
      ((c.checkDurable r now).1, (c.checkDurable r now).2.lenient) := by
  rcases r with _ | e | _
  · rfl
  · unfold TieredCache.checkDurable DurableRead.lenient
    rw [show c.lenient.policy = c.policy from rfl]
    by_cases hfresh : c.policy.isFresh e now = true
    · simp only [if_pos hfresh]
      rfl
    · simp only [if_neg hfresh]
      rfl
  · rfl

theorem takeDue?_lenient (c : TieredCache α) (now : Instant) :
    c.lenient.takeDue? now = (c.takeDue? now).map fun (batch, c) => (batch, c.lenient) := by
  rw [takeDue?_eq, takeDue?_eq, show c.lenient.writeBack = c.writeBack from rfl]
  split <;> rfl

variable [Payload α] [DurableStore σ]

theorem attempt_lenient (w : PendingWrite α) (ttlSecs : UInt64) (now : Instant) (store : σ) :
    w.attempt ttlSecs now (⟨store⟩ : LenientStore α σ) =
      ((w.attempt ttlSecs now store).1, ⟨(w.attempt ttlSecs now store).2⟩) := by
  unfold PendingWrite.attempt
  rcases w.entry.encode? with _ | bytes <;> rfl

theorem step_pass_lenient (p : Pass α) (ttlSecs : UInt64) (now : Instant) (store : σ) :
    p.step ttlSecs now (⟨store⟩ : LenientStore α σ) =
      ((p.step ttlSecs now store).1, ⟨(p.step ttlSecs now store).2⟩) := by
  unfold Pass.step
  rcases p.rest with _ | ⟨w, rest⟩
  · rfl
  · simp only [attempt_lenient]

theorem stepPass_lenient (s : System α ε σ) (cache : Nat) (c : TieredCache α) (clock : Instant)
    (p : Pass α) :
    s.lenient.stepPass cache c.lenient clock p =
      ((s.stepPass cache c clock p).1, (s.stepPass cache c clock p).2.lenient) := by
  unfold stepPass
  rw [show s.lenient.store = ⟨s.store⟩ from rfl, show c.lenient.writeBack = c.writeBack from rfl,
    step_pass_lenient]
  rcases p.step c.writeBack.ttlSecs clock s.store with ⟨r | p' | _, store⟩
  · exact congrArg (Prod.mk _) (lenient_setCache { s with store } cache (c.settle r)).symm
  · rfl
  · rfl

theorem stepLookup_lenient (s : System α ε σ) (id cache : Nat) (c : TieredCache α) (key : String)
    (now clock : Instant) (outcome : Option (Except ε α)) (stage : LookupStage α ε) :
    s.lenient.stepLookup id cache c.lenient key now clock outcome stage.lenient =
      (s.stepLookup id cache c key now clock outcome stage).lenient := by
  -- a lookup goes on to a stage, the cache having changed
  have hset : ∀ (c : TieredCache α) (stage : LookupStage α ε),
      ((s.setCache cache c).setTask id (.lookup cache key now stage)).lenient =
        (s.lenient.setCache cache c.lenient).setTask id (.lookup cache key now stage.lenient) := by
    intro c stage
    rw [lenient_setTask, lenient_setCache]
    rfl
  cases stage with
  | asking =>
    simp only [stepLookup, LookupStage.lenient, checkHot_lenient]
    rcases c.checkHot key now with ⟨_ | e, c'⟩
    · exact (hset c' .reading).symm
    · exact (hset c' (.closing (.ok (.cached e)))).symm
  | reading =>
    have hjudging := lenient_setTask
      ({ s with store := (DurableStore.get s.store clock key).2 } : System α ε σ) id
      (.lookup cache key now (.judging (.ofBytes (DurableStore.get s.store clock key).1)))
    rw [Task.lenient, LookupStage.lenient, ← ofBytes_lenientResult] at hjudging
    exact hjudging.symm
  | judging r =>
    simp only [stepLookup, LookupStage.lenient, checkDurable_lenient]
    rcases c.checkDurable r now with ⟨_ | e, c'⟩
    · exact (hset c' .fetching).symm
    · exact (hset c' (.closing (.ok (.cached e)))).symm
  | fetching =>
    rcases outcome with _ | err | payload
    · rfl
    · exact (lenient_setTask s id (.lookup cache key now (.closing (.error err)))).symm
    · exact (hset (c.storeFetched ⟨key, payload, now⟩)
        (.closing (.ok (.fetched ⟨key, payload, now⟩)))).symm
  | closing answer =>
    simp only [stepLookup, LookupStage.lenient, takeDue?_lenient]
    rcases c.takeDue? now with _ | ⟨batch, c'⟩
    · exact (lenient_setTask s id (.answered answer)).symm
    · simp only [Option.map_some, show c'.lenient.backgroundFlush = c'.backgroundFlush from rfl]
      split
      · exact (hset c' (.detaching answer batch)).symm
      · exact (hset c' (.writing answer (.ofBatch batch))).symm
  | detaching answer batch =>
    have hadd := lenient_add s (.pass cache (.ofBatch batch))
    have henlist := lenient_enlist (s.add (.pass cache (.ofBatch batch))).2 cache s.next
    rw [hadd] at henlist
    exact (congrArg (setTask · id (.answered answer)) henlist).symm.trans
      (lenient_setTask _ id (.answered answer)).symm
  | writing answer p =>
    simp only [stepLookup, LookupStage.lenient, stepPass_lenient]
    rcases s.stepPass cache c clock p with ⟨r | p' | _, s'⟩
    · exact (lenient_setTask s' id (.answered answer)).symm
    · exact (lenient_setTask s' id (.lookup cache key now (.writing answer p'))).symm
    · exact (lenient_setTask s' id .aborted).symm

theorem stepFlush_lenient (s : System α ε σ) (cache : Nat) (slot : Slot α)
    (now clock : Instant) (stage : FlushStage α) :
    s.lenient.stepFlush cache slot.lenient now clock stage =
      ((s.stepFlush cache slot now clock stage).1.lenient,
        (s.stepFlush cache slot now clock stage).2) := by
  cases stage with
  | starting => exact congrArg (·, _) (lenient_setSlot s cache { slot with inFlight := [] }).symm
  | joining passes => simp only [stepFlush, funext (lenient_isOver s)]
  | taking => exact congrArg (·, _) (lenient_setCache s cache (slot.cache.takeAll now).2).symm
  | writing p =>
    have hpass := stepPass_lenient s cache slot.cache clock p
    simp only [stepFlush, show slot.lenient.cache = slot.cache.lenient from rfl, hpass]
    rcases s.stepPass cache slot.cache clock p with ⟨r | p' | _, s'⟩ <;> rfl

/-- A step over the lenient store is the image of the step. -/
theorem step_lenient (s : System α ε σ) (clock : Instant) (outcome : Option (Except ε α))
    (id : Nat) : s.lenient.step clock outcome id = (s.step clock outcome id).lenient := by
  rcases ht : s.task? id with _ | t
  · simp only [step, task?_lenient, ht, Option.map_none]
  cases t with
  | lookup cache key now stage =>
    simp only [step, task?_lenient, ht, Option.map_some, Task.lenient, cache?_lenient]
    rcases s.cache? cache with _ | c
    · rfl
    · exact stepLookup_lenient s id cache c key now clock outcome stage
  | flush cache now stage =>
    simp only [step, task?_lenient, ht, Option.map_some, Task.lenient, slots_lenient]
    rcases s.slots[cache]? with _ | slot
    · rfl
    · simp only [Option.map_some, stepFlush_lenient]
      rcases s.stepFlush cache slot now clock stage with ⟨s', _ | stage' | r⟩
      · exact (lenient_setTask s' id .aborted).symm
      · exact (lenient_setTask s' id (.flush cache now stage')).symm
      · exact (lenient_setTask s' id (.flushed r)).symm
  | pass cache p =>
    simp only [step, task?_lenient, ht, Option.map_some, Task.lenient, cache?_lenient]
    rcases s.cache? cache with _ | c
    · rfl
    · simp only [Option.map_some, stepPass_lenient]
      rcases s.stepPass cache c clock p with ⟨r | p' | _, s'⟩
      · exact (lenient_setTask s' id .ended).symm
      · exact (lenient_setTask s' id (.pass cache p')).symm
      · exact (lenient_setTask s' id .aborted).symm
  | maintenance cache secs flush =>
    rcases flush with _ | ⟨now, stage⟩
    · simp only [step, task?_lenient, ht, Option.map_some, Task.lenient]
      exact (lenient_setTask s id (.maintenance cache secs (some (clock, .starting)))).symm
    · simp only [step, task?_lenient, ht, Option.map_some, Task.lenient, slots_lenient]
      rcases s.slots[cache]? with _ | slot
      · rfl
      · simp only [Option.map_some, stepFlush_lenient]
        rcases s.stepFlush cache slot now clock stage with ⟨s', _ | stage' | r⟩
        · exact (lenient_setTask s' id .aborted).symm
        · exact (lenient_setTask s' id (.maintenance cache secs (some (now, stage')))).symm
        · exact (lenient_setTask s' id (.maintenance cache secs none)).symm
  | answered answer => simp only [step, task?_lenient, ht, Option.map_some, Task.lenient]
  | flushed report => simp only [step, task?_lenient, ht, Option.map_some, Task.lenient]
  | ended => simp only [step, task?_lenient, ht, Option.map_some, Task.lenient]
  | aborted => simp only [step, task?_lenient, ht, Option.map_some, Task.lenient]

/-- An event over the lenient store is the image of the event. -/
theorem apply_lenient (s : System α ε σ) (ev : Event α ε σ) :
    s.lenient.apply ev.lenient = (s.apply ev).lenient := by
  cases ev with
  | lookup cache q now =>
    simp only [apply, Event.lenient, addLookup, cache?_lenient]
    rcases s.cache? cache with _ | c
    · rfl
    · exact (lenient_add s (.lookup cache (c.keyFor q) now .asking)).symm
  | flush cache now => exact (lenient_add s (.flush cache now .starting)).symm
  | maintain cache secs => exact (lenient_add s (.maintenance cache secs none)).symm
  | invalidate cache q =>
    simp only [apply, Event.lenient, cache?_lenient]
    rcases s.cache? cache with _ | c
    · rfl
    · exact (lenient_setCache s cache (c.invalidate q).2).symm
  | step clock outcome id => exact step_lenient s clock outcome id
  | abort id => exact abort_lenient s id
  | disturb change => rfl

/-- A run over the lenient store is the image of the run. -/
theorem run_lenient (s : System α ε σ) (events : List (Event α ε σ)) :
    s.lenient.run (events.map Event.lenient) = (s.run events).lenient := by
  induction events generalizing s with
  | nil => rfl
  | cons ev events ih =>
    show (s.lenient.apply ev.lenient).run (events.map Event.lenient) =
      ((s.apply ev).run events).lenient
    rw [apply_lenient, ih]

end Steps

/-! ## What can be seen of a run -/

section Views

theorem news_judging (id pass cache : Nat) (key : String) (now : Instant) (r r' : DurableRead α)
    (t : Task α ε) : (Task.lookup cache key now (.judging r)).news id pass t =
      (Task.lookup cache key now (.judging r')).news id pass t := by
  cases t with
  | lookup cache key now stage => cases stage <;> rfl
  | _ => rfl

/-- To have read the store is nothing that others can see. -/
theorem news_of_judging (id pass cache : Nat) (key : String) (now : Instant) (r : DurableRead α)
    (t : Task α ε) : t.news id pass (.lookup cache key now (.judging r)) = [] := by
  rcases hp : t.pass? with _ | ⟨_ | ⟨w, rest⟩, r⟩
  · cases t with
    | lookup cache key now stage => cases stage <;> first | rfl | cases hp
    | flush cache now stage => cases stage <;> first | rfl | cases hp
    | pass cache p => cases hp
    | maintenance cache secs stage =>
      rcases stage with _ | ⟨now, _ | _ | _ | p⟩ <;> first | rfl | cases hp
    | _ => rfl
  · rcases writer_cases hp with ⟨_, _, _, _, rfl⟩ | ⟨_, _, rfl⟩ | ⟨_, rfl⟩ | ⟨_, _, _, rfl⟩ <;> rfl
  · rcases writer_cases hp with ⟨_, _, _, _, rfl⟩ | ⟨_, _, rfl⟩ | ⟨_, rfl⟩ | ⟨_, _, _, rfl⟩ <;>
      simp [Task.news, Task.pass?]

theorem news_lenient (id pass : Nat) (t t' : Task α ε) :
    t.lenient.news id pass t'.lenient = t.news id pass t' := by
  have hleft : ∀ t', t.lenient.news id pass t' = t.news id pass t' := by
    intro t'
    cases t with
    | lookup cache key now stage =>
      cases stage with
      | judging r => exact news_judging id pass cache key now _ _ t'
      | _ => rfl
    | _ => rfl
  rw [hleft]
  cases t' with
  | lookup cache key now stage =>
    cases stage with
    | judging r => exact (news_of_judging _ _ _ _ _ _ t).trans (news_of_judging _ _ _ _ _ _ t).symm
    | _ => rfl
  | _ => rfl

variable [Payload α] [DurableStore σ]

theorem event_news_lenient (s : System α ε σ) (ev : Event α ε σ) :
    s.lenient.news ev.lenient = s.news ev := by
  cases ev with
  | lookup cache q now =>
    simp only [news, Event.lenient, cache?_lenient, Option.isSome_map]
    rfl
  | step clock outcome id =>
    simp only [news, Event.lenient, step_lenient, task?_lenient]
    rcases s.task? id with _ | t
    · rfl
    · rcases (s.step clock outcome id).task? id with _ | t'
      · rfl
      · exact news_lenient id s.next t t'
  | _ => rfl

theorem history_lenient (s : System α ε σ) (events : List (Event α ε σ)) :
    s.lenient.history (events.map Event.lenient) = s.history events := by
  induction events generalizing s with
  | nil => rfl
  | cons ev events ih => rw [List.map_cons, history, history, event_news_lenient, apply_lenient, ih]

theorem read?_lenient (s : System α ε σ) (ev : Event α ε σ) :
    s.lenient.read? ev.lenient = (s.read? ev).map (StoreRead.lenient α) := by
  cases ev with
  | step clock outcome id =>
    simp only [read?, Event.lenient, task?_lenient]
    rcases s.task? id with _ | t
    · rfl
    · cases t with
      | lookup cache key now stage =>
        cases stage with
        | reading =>
          simp only [Option.map_some, Task.lenient, LookupStage.lenient, cache?_lenient,
            Option.isSome_map]
          split <;> rfl
        | _ => rfl
      | _ => rfl
  | _ => rfl

theorem reads_lenient (s : System α ε σ) (events : List (Event α ε σ)) :
    s.lenient.reads (events.map Event.lenient) = (s.reads events).map (StoreRead.lenient α) := by
  induction events generalizing s with
  | nil => rfl
  | cons ev events ih =>
    rw [List.map_cons, reads, reads, read?_lenient, apply_lenient, ih, List.map_append,
      Option.toList_map]

theorem write?_lenient (s : System α ε σ) (ev : Event α ε σ) :
    s.lenient.write? ev.lenient = s.write? ev := by
  cases ev with
  | step clock outcome id =>
    simp only [write?, Event.lenient, task?_lenient]
    rcases s.task? id with _ | t
    · rfl
    · have hcache : t.lenient.cache?.bind s.lenient.cache? =
          (t.cache?.bind s.cache?).map TieredCache.lenient := by
        rw [owner_lenient]
        rcases t.cache? with _ | cache
        · rfl
        · exact cache?_lenient s cache
      simp only [Option.map_some, pass?_lenient, hcache]
      rcases t.pass? with _ | ⟨_ | ⟨w, rest⟩, r⟩
      · rfl
      · rfl
      · rcases t.cache?.bind s.cache? with _ | c <;> rfl
  | _ => rfl

theorem writes_lenient (s : System α ε σ) (events : List (Event α ε σ)) :
    s.lenient.writes (events.map Event.lenient) = s.writes events := by
  induction events generalizing s with
  | nil => rfl
  | cons ev events ih => rw [List.map_cons, writes, writes, write?_lenient, apply_lenient, ih]

end Views

/-! ## Both runs -/

section Runs

theorem lenient_ofSpecs (store : σ) (specs : List (String × CacheSettings × Instant)) :
    (ofSpecs store specs : System α ε σ).lenient = ofSpecs ⟨store⟩ specs := by
  unfold ofSpecs ofCaches lenient
  simp only [System.mk.injEq, List.map_map, true_and]
  exact ⟨rfl, Std.ExtTreeMap.ext_getElem? fun k => by simp, trivial⟩

variable [Payload α] [DurableStore σ]

/-- A run over a store in which reads may fail, and the run in which each failed read is answered
    "absent" and everything else is the same: what happens in them, what they write, and what
    they leave in the store, in the caches and in the hands of the tasks is the same. All that is
    different is the counter of failed reads, which is zero in the second run and in the first
    one, as long as no task is given up, the number of failed reads that were judged. In neither
    run does a lookup answer an error that is not the provider's. -/
theorem failed_reads_absent (store : σ) (specs : List (String × CacheSettings × Instant))
    (events : List (Event α ε σ)) :
    ((ofSpecs ⟨store⟩ specs : System α ε (LenientStore α σ)).reads (events.map Event.lenient) =
        ((ofSpecs store specs).reads events).map (StoreRead.lenient α)) ∧
      (ofSpecs ⟨store⟩ specs : System α ε (LenientStore α σ)).history
        (events.map Event.lenient) = (ofSpecs store specs).history events ∧
      (ofSpecs ⟨store⟩ specs : System α ε (LenientStore α σ)).writes
        (events.map Event.lenient) = (ofSpecs store specs).writes events ∧
      ((ofSpecs ⟨store⟩ specs : System α ε (LenientStore α σ)).run
        (events.map Event.lenient)).store = ⟨((ofSpecs store specs).run events).store⟩ ∧
      (∀ k, ((ofSpecs ⟨store⟩ specs : System α ε (LenientStore α σ)).run
          (events.map Event.lenient)).cache? k =
        (((ofSpecs store specs).run events).cache? k).map fun c =>
          { c with counters := { c.counters with durableErrors := 0 } }) ∧
      (∀ id, ((ofSpecs ⟨store⟩ specs : System α ε (LenientStore α σ)).run
          (events.map Event.lenient)).task? id =
        (((ofSpecs store specs).run events).task? id).map Task.lenient) ∧
      ((∀ id, .abort id ∉ events) → ∀ k c, ((ofSpecs store specs).run events).cache? k = some c →
        c.counters.durableErrors + ((ofSpecs store specs).run events).unjudged k =
          ((ofSpecs store specs).reads events).countP fun r => r.cache = k && r.isFailed α) ∧
      ∀ id err, .answered id (.error err) ∈ (ofSpecs store specs).history events →
        ∃ before clock after cache key now,
          events = before ++ .step clock (some (.error err)) id :: after ∧
            ((ofSpecs store specs).run before).task? id =
              some (.lookup cache key now .fetching) := by
  have hstart := lenient_ofSpecs (α := α) (ε := ε) store specs
  have hrun := run_lenient (ofSpecs store specs) events
  rw [← hstart, reads_lenient, history_lenient, writes_lenient, hrun]
  refine ⟨rfl, rfl, rfl, rfl, fun k => cache?_lenient _ k, fun id => task?_lenient _ id,
    fun habort k c hc => ?_, fun id err h => refused_of_answered (fun k t ht => ?_) events h⟩
  · rw [← errors_run store specs habort k, errors, hc]
    rfl
  · rw [task?_ofSpecs] at ht
    cases ht

end Runs

/-! ### A run in which reads fail -/

/-- Two lookups whose reads fail: under the first key there are bytes that are no entry, and the
    read of the second key is refused. The provider serves the one and refuses the other. -/
def failing : List (Event String String (FaultyStore MemoryStore)) :=
  [.disturb fun s => { s with inner := s.inner.put ⟨100, 0⟩ "n:A" [0] 60 }] ++
    lookupRun (.ofSymbols ["a"]) 0 ⟨100, 0⟩ [none, none, none, some (.ok "u"), none, none, none] ++
    [.disturb fun s => { s with plan := { s.plan with failReads := true } }] ++
    lookupRun (.ofSymbols ["b"]) 1 ⟨101, 0⟩ [none, none, none, some (.error "busy"), none, none]

theorem failed_reads_absent_failing :
    [.answered 0 (.ok ⟨"n:A", "u", false, ⟨100, 0⟩⟩), .answered 1 (.error "busy")] ⊆
        (ofSpecs ⟨.ofStore .empty⟩ [("n", ⟨60, 0, 86400, false⟩, ⟨100, 0⟩)] :
          System String String (LenientStore String (FaultyStore MemoryStore))).history
            (failing.map Event.lenient) ∧
      ∃ c, ((ofSpecs (.ofStore .empty) [("n", ⟨60, 0, 86400, false⟩, ⟨100, 0⟩)]).run
          failing).cache? 0 = some c ∧ c.counters.durableErrors = 2 := by
  obtain ⟨-, hhistory, -, -, -, -, hcount, -⟩ :=
    failed_reads_absent (.ofStore .empty) [("n", ⟨60, 0, 86400, false⟩, ⟨100, 0⟩)] failing
  refine ⟨hhistory ▸ by decide +kernel, ?_⟩
  have habort : ∀ id, Event.abort id ∉ failing := by simp [failing, lookupRun]
  rcases hc : ((ofSpecs (.ofStore .empty) [("n", ⟨60, 0, 86400, false⟩, ⟨100, 0⟩)]).run
      failing).cache? 0 with _ | c
  · exact absurd hc (by decide +kernel)
  · have hjudged : ((ofSpecs (.ofStore .empty) [("n", ⟨60, 0, 86400, false⟩, ⟨100, 0⟩)]).run
        failing).unjudged 0 = 0 := by decide +kernel
    have htwo := hcount habort 0 c hc
    rw [hjudged] at htwo
    exact ⟨c, hc, htwo.trans (by decide +kernel)⟩

end System

end MarketCache
