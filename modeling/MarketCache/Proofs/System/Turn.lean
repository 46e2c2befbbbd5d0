import MarketCache.Proofs.System.Run

/-!
# The turns of a task

All that a step of a task can do to a system, told once: the stages of a lookup, those of a
flush, and the writes of a pass, whoever makes them. What holds of a system step by step is
shown by cases on the turns.

Main definitions:
* `System.Turn`: all that a step of a task can do.
* `System.Move`: all that an event can do.

Results:
* `writer_cases`, `flusher_cases`: which tasks write and which flush.
* `step_turn`: a step of a task is one of its turns.
* `apply_move`: an event is one of its moves.
-/

namespace MarketCache

variable {α ε σ : Type}

/-! ## Tasks that write and tasks that flush -/

/-- The cache that a task works for. -/
def Task.cache? : Task α ε → Option Nat
  | .lookup cache _ _ _ => some cache
  | .flush cache _ _ => some cache
  | .pass cache _ => some cache
  | .maintenance cache _ _ => some cache
  | _ => none

/-- The task that writes a pass, the pass having gone further. -/
def Task.withPass : Task α ε → Pass α → Task α ε
  | .lookup cache key now (.writing answer _), p => .lookup cache key now (.writing answer p)
  | .flush cache now (.writing _), p => .flush cache now (.writing p)
  | .pass cache _, p => .pass cache p
  | .maintenance cache secs (some (now, .writing _)), p =>
    .maintenance cache secs (some (now, .writing p))
  | t, _ => t

/-- The task that wrote a pass, the pass being over. -/
def Task.afterPass : Task α ε → FlushReport → Task α ε
  | .lookup _ _ _ (.writing answer _), _ => .answered answer
  | .flush _ _ (.writing _), r => .flushed r
  | .pass _ _, _ => .ended
  | .maintenance cache secs (some (_, .writing _)), _ => .maintenance cache secs none
  | t, _ => t

/-- The stage of the flush that a task is at. -/
def Task.flushing? : Task α ε → Option (Instant × FlushStage α)
  | .flush _ now stage => some (now, stage)
  | .maintenance _ _ stage => stage
  | _ => none

/-- The task at another stage of its flush. -/
def Task.withFlush : Task α ε → FlushStage α → Task α ε
  | .flush cache now _, stage => .flush cache now stage
  | .maintenance cache secs (some (now, _)), stage => .maintenance cache secs (some (now, stage))
  | t, _ => t

/-- The writes that a task has taken and not yet attempted. -/
def Task.unwritten : Task α ε → List (PendingWrite α)
  | .lookup _ _ _ (.detaching _ batch) => batch
  | t => (t.pass?.map (·.rest)).getD []

/-- The writes that a flush has taken and not yet attempted at a stage. -/
def FlushStage.unwritten : FlushStage α → List (PendingWrite α)
  | .writing p => p.rest
  | _ => []

/-- The passes that a flush waits for at a stage. -/
def FlushStage.joined : FlushStage α → List Nat
  | .joining passes => passes
  | _ => []

namespace System

/-! ## Turns -/

section Turns

variable [Payload α] [DurableStore σ]

/-- All that a step of a task can do: from the task before it, what happens and the system
    after it. -/
inductive Turn (s : System α ε σ) (clock : Instant) (id : Nat) :
    Task α ε → List (Happening α ε) → System α ε σ → Prop where
  /-- The task is over, or has to wait. -/
  | idle {t} : Turn s clock id t [] s
  | hot {cache key now c e} (hc : s.cache? cache = some c) (he : c.hot.get? key = some e)
      (hfresh : c.policy.isFresh e now = true) :
      Turn s clock id (.lookup cache key now .asking) []
        ((s.setCache cache { c with counters := c.counters.recordHotHit }).setTask id
          (.lookup cache key now (.closing (.ok (.cached e)))))
  | cold {cache key now c} (hc : s.cache? cache = some c) :
      Turn s clock id (.lookup cache key now .asking) []
        ((s.setCache cache c).setTask id (.lookup cache key now .reading))
  | read {cache key now r} (store : σ) (hget : DurableStore.get s.store clock key = (r, store)) :
      Turn s clock id (.lookup cache key now .reading) []
        (setTask { s with store } id (.lookup cache key now (.judging (.ofBytes r))))
  | durable {cache key now c e} (hc : s.cache? cache = some c)
      (hfresh : c.policy.isFresh e now = true) :
      Turn s clock id (.lookup cache key now (.judging (.found e))) []
        ((s.setCache cache
            { c with hot := c.hot.set e, counters := c.counters.recordDurableHit }).setTask id
          (.lookup cache key now (.closing (.ok (.cached e)))))
  | call {cache key now r c} (counters : CacheStats) (hc : s.cache? cache = some c) :
      Turn s clock id (.lookup cache key now (.judging r)) [.called id]
        ((s.setCache cache { c with counters }).setTask id (.lookup cache key now .fetching))
  | fetched {cache key now c} (payload : α) (hc : s.cache? cache = some c) :
      Turn s clock id (.lookup cache key now .fetching) [.fetched id cache ⟨key, payload, now⟩]
        ((s.setCache cache (c.storeFetched ⟨key, payload, now⟩)).setTask id
          (.lookup cache key now (.closing (.ok (.fetched ⟨key, payload, now⟩)))))
  | refused {cache key now} (err : ε) :
      Turn s clock id (.lookup cache key now .fetching) []
        (s.setTask id (.lookup cache key now (.closing (.error err))))
  | rest {cache key now answer} :
      Turn s clock id (.lookup cache key now (.closing answer)) [.answered id answer]
        (s.setTask id (.answered answer))
  | hand {cache key now answer c} (hc : s.cache? cache = some c) :
      Turn s clock id (.lookup cache key now (.closing answer)) [.took id cache]
        ((s.setCache cache (c.takeAll now).2).setTask id
          (.lookup cache key now (.detaching answer c.writeBack.batch)))
  | begin {cache key now answer c} (hc : s.cache? cache = some c) :
      Turn s clock id (.lookup cache key now (.closing answer)) [.took id cache]
        ((s.setCache cache (c.takeAll now).2).setTask id
          (.lookup cache key now (.writing answer (.ofBatch c.writeBack.batch))))
  | detach {key now answer} (cache : Nat) (batch : List (PendingWrite α)) {c}
      (hc : s.cache? cache = some c) :
      Turn s clock id (.lookup cache key now (.detaching answer batch))
        [.handed id s.next, .answered id answer]
        (setTask
          { (s.add (.pass cache (.ofBatch batch))).2 with
            slots := s.slots.modify cache fun slot =>
              { slot with inFlight := slot.inFlight ++ [s.next] } }
          id (.answered answer))
  | write {t cache c w rest r a} (store : σ) (hp : t.pass? = some ⟨w :: rest, r⟩)
      (hcache : t.cache? = some cache) (hc : s.cache? cache = some c)
      (hw : w.attempt c.writeBack.ttlSecs clock s.store = (a, store)) (ha : a ≠ .aborted) :
      Turn s clock id t [.attempted id w]
        (setTask { s with store } id (t.withPass ⟨rest, r.tally a⟩))
  | broke {t cache c w rest r} (store : σ) (hp : t.pass? = some ⟨w :: rest, r⟩)
      (hcache : t.cache? = some cache) (hc : s.cache? cache = some c)
      (hw : w.attempt c.writeBack.ttlSecs clock s.store = (.aborted, store)) :
      Turn s clock id t [.broke id] (setTask { s with store } id .aborted)
  | wrote {t cache c r} (hp : t.pass? = some ⟨[], r⟩) (hcache : t.cache? = some cache)
      (hc : s.cache? cache = some c) :
      Turn s clock id t
        (match t.afterPass r with
          | .answered answer => [.answered id answer]
          | _ => [])
        ((s.setCache cache (c.settle r)).setTask id (t.afterPass r))
  | wake {cache secs} :
      Turn s clock id (.maintenance cache secs none) []
        (s.setTask id (.maintenance cache secs (some (clock, .starting))))
  | takeOver {t now cache slot} (hf : t.flushing? = some (now, .starting))
      (hcache : t.cache? = some cache) (hslot : s.slots[cache]? = some slot) :
      Turn s clock id t [.tookOver id slot.inFlight]
        ((s.setSlot cache { slot with inFlight := [] }).setTask id
          (t.withFlush (.joining slot.inFlight)))
  | wait {t now passes} (hf : t.flushing? = some (now, .joining passes)) :
      Turn s clock id t [] (s.setTask id (t.withFlush (.joining passes)))
  | join {t now passes} (hf : t.flushing? = some (now, .joining passes))
      (hover : ∀ p ∈ passes, s.isOver p = true) :
      Turn s clock id t [] (s.setTask id (t.withFlush .taking))
  | take {t now cache c} (hf : t.flushing? = some (now, .taking))
      (hcache : t.cache? = some cache) (hc : s.cache? cache = some c) :
      Turn s clock id t [.took id cache]
        ((s.setCache cache (c.takeAll now).2).setTask id
          (t.withFlush (.writing (.ofBatch c.writeBack.batch))))

end Turns

/-! ## What happens in a turn -/

theorem takeDue?_eq (c : TieredCache α) (now : Instant) :
    c.takeDue? now = if c.writeBack.isDue now then some (c.takeAll now) else none := by
  unfold TieredCache.takeDue? WriteBack.takeDue?
  split <;> rfl

section News

variable {id : Nat} {t : Task α ε}

/-- A task that writes a pass is one of four kinds. -/
theorem writer_cases {p : Pass α} (hp : t.pass? = some p) :
    (∃ cache key now answer, t = .lookup cache key now (.writing answer p)) ∨
      (∃ cache now, t = .flush cache now (.writing p)) ∨
      (∃ cache, t = .pass cache p) ∨
      ∃ cache secs now, t = .maintenance cache secs (some (now, .writing p)) := by
  cases t with
  | lookup cache key now stage =>
    cases stage <;> cases hp
    exact Or.inl ⟨cache, key, now, _, rfl⟩
  | flush cache now stage =>
    cases stage <;> cases hp
    exact Or.inr (Or.inl ⟨cache, now, rfl⟩)
  | pass cache p' =>
    cases hp
    exact Or.inr (Or.inr (Or.inl ⟨cache, rfl⟩))
  | maintenance cache secs stage =>
    rcases stage with _ | ⟨now, _ | _ | _ | p'⟩ <;> cases hp
    exact Or.inr (Or.inr (Or.inr ⟨cache, secs, now, rfl⟩))
  | answered answer => cases hp
  | flushed report => cases hp
  | ended => cases hp
  | aborted => cases hp

/-- Nothing happens as long as a task stays as it is. -/
theorem news_self (id pass : Nat) (t : Task α ε) : t.news id pass t = [] := by
  rcases hp : t.pass? with _ | ⟨_ | ⟨w, rest⟩, r⟩
  · cases t with
    | lookup cache key now stage => cases stage <;> first | rfl | cases hp
    | flush cache now stage => cases stage <;> first | rfl | cases hp
    | pass cache p => cases hp
    | maintenance cache secs stage =>
      rcases stage with _ | ⟨now, _ | _ | _ | p⟩ <;> first | rfl | cases hp
    | answered answer => rfl
    | flushed report => rfl
    | ended => rfl
    | aborted => rfl
  · rcases writer_cases hp with ⟨_, _, _, _, rfl⟩ | ⟨_, _, rfl⟩ | ⟨_, rfl⟩ | ⟨_, _, _, rfl⟩ <;> rfl
  · rcases writer_cases hp with ⟨_, _, _, _, rfl⟩ | ⟨_, _, rfl⟩ | ⟨_, rfl⟩ | ⟨_, _, _, rfl⟩ <;>
      simp [Task.news, Task.pass?]

/-- A task that flushes is one of two kinds. -/
theorem flusher_cases {now : Instant} {stage : FlushStage α}
    (hf : t.flushing? = some (now, stage)) :
    (∃ cache, t = .flush cache now stage) ∨
      ∃ cache secs, t = .maintenance cache secs (some (now, stage)) := by
  cases t with
  | flush cache now' stage' =>
    cases hf
    exact Or.inl ⟨cache, rfl⟩
  | maintenance cache secs flush =>
    cases hf
    exact Or.inr ⟨cache, secs, rfl⟩
  | lookup cache key now' stage' => cases hf
  | pass cache p => cases hf
  | answered answer => cases hf
  | flushed report => cases hf
  | ended => cases hf
  | aborted => cases hf

theorem news_withPass {w : PendingWrite α} {rest : List (PendingWrite α)} {r : FlushReport}
    (hp : t.pass? = some ⟨w :: rest, r⟩) (id pass : Nat) (r' : FlushReport) :
    t.news id pass (t.withPass ⟨rest, r'⟩) = [.attempted id w] := by
  rcases writer_cases hp with ⟨_, _, _, _, rfl⟩ | ⟨_, _, rfl⟩ | ⟨_, rfl⟩ | ⟨_, _, _, rfl⟩ <;>
    simp [Task.news, Task.pass?, Task.withPass]

theorem news_broke {p : Pass α} (hp : t.pass? = some p) (id pass : Nat) :
    t.news id pass .aborted = [.broke id] := by
  rcases writer_cases hp with ⟨_, _, _, _, rfl⟩ | ⟨_, _, rfl⟩ | ⟨_, rfl⟩ | ⟨_, _, _, rfl⟩ <;> rfl

theorem news_afterPass {r r' : FlushReport} (hp : t.pass? = some ⟨[], r⟩) (id pass : Nat) :
    t.news id pass (t.afterPass r') =
      match t.afterPass r' with
      | .answered answer => [.answered id answer]
      | _ => [] := by
  rcases writer_cases hp with ⟨_, _, _, _, rfl⟩ | ⟨_, _, rfl⟩ | ⟨_, rfl⟩ | ⟨_, _, _, rfl⟩ <;> rfl

theorem isOver_of_pass? {p : Pass α} (hp : t.pass? = some p) : t.isOver = false := by
  rcases writer_cases hp with ⟨_, _, _, _, rfl⟩ | ⟨_, _, rfl⟩ | ⟨_, rfl⟩ | ⟨_, _, _, rfl⟩ <;> rfl

theorem isOver_of_flushing? {now : Instant} {stage : FlushStage α}
    (hf : t.flushing? = some (now, stage)) : t.isOver = false := by
  rcases flusher_cases hf with ⟨_, rfl⟩ | ⟨_, _, rfl⟩ <;> rfl

/-! ### What is not yet attempted -/

theorem unwritten_of_pass? {p : Pass α} (hp : t.pass? = some p) : t.unwritten = p.rest := by
  rcases writer_cases hp with ⟨_, _, _, _, rfl⟩ | ⟨_, _, rfl⟩ | ⟨_, rfl⟩ | ⟨_, _, _, rfl⟩ <;> rfl

theorem pass?_withPass {p : Pass α} (hp : t.pass? = some p) (p' : Pass α) :
    (t.withPass p').pass? = some p' := by
  rcases writer_cases hp with ⟨_, _, _, _, rfl⟩ | ⟨_, _, rfl⟩ | ⟨_, rfl⟩ | ⟨_, _, _, rfl⟩ <;> rfl

theorem unwritten_of_flushing? {now : Instant} {stage : FlushStage α}
    (hf : t.flushing? = some (now, stage)) : t.unwritten = stage.unwritten := by
  rcases flusher_cases hf with ⟨_, rfl⟩ | ⟨_, _, rfl⟩ <;> cases stage <;> rfl

theorem unwritten_withFlush {now : Instant} {stage : FlushStage α}
    (hf : t.flushing? = some (now, stage)) (stage' : FlushStage α) :
    (t.withFlush stage').unwritten = stage'.unwritten := by
  rcases flusher_cases hf with ⟨_, rfl⟩ | ⟨_, _, rfl⟩ <;> cases stage' <;> rfl

/-! ### What is waited for -/

theorem joined_of_pass? {p : Pass α} (hp : t.pass? = some p) : t.joined = [] := by
  rcases writer_cases hp with ⟨_, _, _, _, rfl⟩ | ⟨_, _, rfl⟩ | ⟨_, rfl⟩ | ⟨_, _, _, rfl⟩ <;> rfl

theorem joined_afterPass {p : Pass α} (hp : t.pass? = some p) (r : FlushReport) :
    (t.afterPass r).joined = [] := by
  rcases writer_cases hp with ⟨_, _, _, _, rfl⟩ | ⟨_, _, rfl⟩ | ⟨_, rfl⟩ | ⟨_, _, _, rfl⟩ <;> rfl

theorem joined_of_flushing? {now : Instant} {stage : FlushStage α}
    (hf : t.flushing? = some (now, stage)) : t.joined = stage.joined := by
  rcases flusher_cases hf with ⟨_, rfl⟩ | ⟨_, _, rfl⟩ <;> cases stage <;> rfl

theorem joined_withFlush {now : Instant} {stage : FlushStage α}
    (hf : t.flushing? = some (now, stage)) (stage' : FlushStage α) :
    (t.withFlush stage').joined = stage'.joined := by
  rcases flusher_cases hf with ⟨_, rfl⟩ | ⟨_, _, rfl⟩ <;> cases stage' <;> rfl

end News

/-! ## A step is a turn -/

section StepTurn

variable [Payload α] [DurableStore σ] {s s' : System α ε σ} {clock : Instant}
  {outcome : Option (Except ε α)} {id : Nat} {t t' : Task α ε}

theorem news_step (ht : s.task? id = some t) (hs : s.step clock outcome id = setTask s' id t') :
    s.news (.step clock outcome id) = t.news id s.next t' := by
  have hafter : (s.step clock outcome id).task? id = some t' := by
    rw [hs, task?_setTask, if_pos rfl]
  simp only [news, ht, hafter]

theorem news_idle (ht : s.task? id = some t) (hs : s.step clock outcome id = s) :
    s.news (.step clock outcome id) = [] := by
  simp only [news, ht, hs, news_self]

/-- How a task that writes a pass goes on. -/
def afterProgress (s : System α ε σ) (id : Nat) (t : Task α ε) : Pass.Progress α → System α ε σ
  | .finished r => s.setTask id (t.afterPass r)
  | .further p => s.setTask id (t.withPass p)
  | .aborted => s.setTask id .aborted

theorem writer_turn {p : Pass α} {cache : Nat} {c : TieredCache α} (ht : s.task? id = some t)
    (hp : t.pass? = some p) (hcache : t.cache? = some cache) (hc : s.cache? cache = some c)
    (hs : s.step clock outcome id =
      afterProgress (s.stepPass cache c clock p).2 id t (s.stepPass cache c clock p).1) :
    Turn s clock id t (s.news (.step clock outcome id)) (s.step clock outcome id) := by
  obtain ⟨rest, r⟩ := p
  cases rest with
  | nil =>
    have hs' : s.step clock outcome id =
        (s.setCache cache (c.settle r)).setTask id (t.afterPass r) := hs
    rw [news_step ht hs', news_afterPass hp, hs']
    exact Turn.wrote hp hcache hc
  | cons w rest =>
    rcases hw : w.attempt c.writeBack.ttlSecs clock s.store with ⟨a, store⟩
    by_cases ha : a = .aborted
    · have hs' : s.step clock outcome id = setTask { s with store } id .aborted := by
        simp only [hs, stepPass, Pass.step, hw, if_pos ha, afterProgress]
      rw [ha] at hw
      rw [news_step ht hs', news_broke hp, hs']
      exact Turn.broke store hp hcache hc hw
    · have hs' : s.step clock outcome id =
          setTask { s with store } id (t.withPass ⟨rest, r.tally a⟩) := by
        simp only [hs, stepPass, Pass.step, hw, if_neg ha, afterProgress]
      rw [news_step ht hs', news_withPass hp, hs']
      exact Turn.write store hp hcache hc hw ha

theorem lookup_turn {cache : Nat} {key : String} {now : Instant} {stage : LookupStage α ε}
    (ht : s.task? id = some (.lookup cache key now stage)) :
    Turn s clock id (.lookup cache key now stage) (s.news (.step clock outcome id))
      (s.step clock outcome id) := by
  rcases hc : s.cache? cache with _ | c
  · have hs : s.step clock outcome id = s := by
      simp only [step, ht, hc]
    rw [news_idle ht hs, hs]
    exact Turn.idle
  have hstep : s.step clock outcome id = s.stepLookup id cache c key now clock outcome stage := by
    simp only [step, ht, hc]
  cases stage with
  | asking =>
    rcases he : c.hot.get? key with _ | e
    · have hs : s.step clock outcome id =
          (s.setCache cache c).setTask id (.lookup cache key now .reading) := by
        simp only [hstep, stepLookup, TieredCache.checkHot, he]
      rw [news_step ht hs, hs]
      exact Turn.cold hc
    · by_cases hfresh : c.policy.isFresh e now = true
      · have hs : s.step clock outcome id =
            (s.setCache cache { c with counters := c.counters.recordHotHit }).setTask id
              (.lookup cache key now (.closing (.ok (.cached e)))) := by
          simp only [hstep, stepLookup, TieredCache.checkHot, he, if_pos hfresh]
        rw [news_step ht hs, hs]
        exact Turn.hot hc he hfresh
      · have hs : s.step clock outcome id =
            (s.setCache cache c).setTask id (.lookup cache key now .reading) := by
          simp only [hstep, stepLookup, TieredCache.checkHot, he, if_neg hfresh]
        rw [news_step ht hs, hs]
        exact Turn.cold hc
  | reading =>
    rcases hget : DurableStore.get s.store clock key with ⟨r, store⟩
    have hs : s.step clock outcome id =
        setTask { s with store } id (.lookup cache key now (.judging (.ofBytes r))) := by
      simp only [hstep, stepLookup, hget]
    rw [news_step ht hs, hs]
    exact Turn.read store hget
  | judging r =>
    rcases hjudge : c.checkDurable r now with ⟨_ | e, c'⟩
    · have hs : s.step clock outcome id =
          (s.setCache cache c').setTask id (.lookup cache key now .fetching) := by
        simp only [hstep, stepLookup, hjudge]
      have hcounters : c' = { c with counters := c'.counters } := by
        cases r with
        | absent =>
          obtain ⟨-, rfl⟩ := Prod.mk.inj hjudge
          rfl
        | failed =>
          obtain ⟨-, rfl⟩ := Prod.mk.inj hjudge
          rfl
        | found e =>
          rw [TieredCache.checkDurable] at hjudge
          split at hjudge
          · simp at hjudge
          · obtain ⟨-, rfl⟩ := Prod.mk.inj hjudge
            rfl
      rw [news_step ht hs, hs, hcounters]
      exact Turn.call c'.counters hc
    · have hs : s.step clock outcome id =
          (s.setCache cache c').setTask id
            (.lookup cache key now (.closing (.ok (.cached e)))) := by
        simp only [hstep, stepLookup, hjudge]
      cases r with
      | absent => cases hjudge
      | failed => cases hjudge
      | found e' =>
        rw [TieredCache.checkDurable] at hjudge
        split at hjudge
        · next hfresh =>
          cases hjudge
          rw [news_step ht hs, hs]
          exact Turn.durable hc hfresh
        · simp at hjudge
  | fetching =>
    rcases outcome with _ | err | payload
    · have hs : s.step clock none id = s := by
        simp only [hstep, stepLookup]
      rw [news_idle ht hs, hs]
      exact Turn.idle
    · have hs : s.step clock (some (.error err)) id =
          s.setTask id (.lookup cache key now (.closing (.error err))) := by
        simp only [hstep, stepLookup]
      rw [news_step ht hs, hs]
      exact Turn.refused err
    · have hs : s.step clock (some (.ok payload)) id =
          (s.setCache cache (c.storeFetched ⟨key, payload, now⟩)).setTask id
            (.lookup cache key now (.closing (.ok (.fetched ⟨key, payload, now⟩)))) := by
        simp only [hstep, stepLookup]
      rw [news_step ht hs, hs]
      exact Turn.fetched payload hc
  | closing answer =>
    by_cases hdue : c.writeBack.isDue now = true
    · by_cases hbackground : c.backgroundFlush = true
      · have hs : s.step clock outcome id =
            (s.setCache cache (c.takeAll now).2).setTask id
              (.lookup cache key now (.detaching answer c.writeBack.batch)) := by
          simp only [hstep, stepLookup, takeDue?_eq, if_pos hdue]
          show setTask _ id (.lookup cache key now (if c.backgroundFlush then _ else _)) = _
          rw [if_pos hbackground]
          rfl
        rw [news_step ht hs, hs]
        exact Turn.hand hc
      · have hs : s.step clock outcome id =
            (s.setCache cache (c.takeAll now).2).setTask id
              (.lookup cache key now (.writing answer (.ofBatch c.writeBack.batch))) := by
          simp only [hstep, stepLookup, takeDue?_eq, if_pos hdue]
          show setTask _ id (.lookup cache key now (if c.backgroundFlush then _ else _)) = _
          rw [if_neg hbackground]
          rfl
        rw [news_step ht hs, hs]
        exact Turn.begin hc
    · have hs : s.step clock outcome id = s.setTask id (.answered answer) := by
        simp only [hstep, stepLookup, takeDue?_eq, if_neg hdue]
      rw [news_step ht hs, hs]
      exact Turn.rest
  | detaching answer batch =>
    have hs : s.step clock outcome id =
        setTask
          { (s.add (.pass cache (.ofBatch batch))).2 with
            slots := s.slots.modify cache fun slot =>
              { slot with inFlight := slot.inFlight ++ [s.next] } }
          id (.answered answer) := by
      simp only [hstep, stepLookup]
      rfl
    rw [news_step ht hs, hs]
    exact Turn.detach cache batch hc
  | writing answer p =>
    refine writer_turn ht rfl rfl hc ?_
    simp only [hstep, stepLookup, afterProgress]
    rcases s.stepPass cache c clock p with ⟨progress, s'⟩
    cases progress <;> rfl

/-- How a task that flushes goes on. -/
def afterFlush (id : Nat) (t : Task α ε) :
    System α ε σ × Option (FlushStage α ⊕ FlushReport) → System α ε σ
  | (s, some (.inl stage)) => s.setTask id (t.withFlush stage)
  | (s, some (.inr r)) => s.setTask id (t.afterPass r)
  | (s, none) => s.setTask id .aborted

theorem flusher_turn {cache : Nat} {now : Instant} {stage : FlushStage α}
    (ht : s.task? id = some t) (hf : t.flushing? = some (now, stage))
    (hcache : t.cache? = some cache)
    (hs : s.step clock outcome id =
      match s.slots[cache]? with
      | some slot => afterFlush id t (s.stepFlush cache slot now clock stage)
      | none => s) :
    Turn s clock id t (s.news (.step clock outcome id)) (s.step clock outcome id) := by
  rcases hslot : s.slots[cache]? with _ | slot
  · have hs' : s.step clock outcome id = s := by
      rw [hs, hslot]
    rw [news_idle ht hs', hs']
    exact Turn.idle
  have hc : s.cache? cache = some slot.cache := by
    unfold cache?
    rw [hslot]
    rfl
  rw [hslot] at hs
  cases stage with
  | starting =>
    have hs' : s.step clock outcome id =
        (s.setSlot cache { slot with inFlight := [] }).setTask id
          (t.withFlush (.joining slot.inFlight)) := hs
    have hnews : t.news id s.next (t.withFlush (.joining slot.inFlight)) =
        [.tookOver id slot.inFlight] := by
      rcases flusher_cases hf with ⟨_, rfl⟩ | ⟨_, _, rfl⟩ <;> rfl
    rw [news_step ht hs', hnews, hs']
    exact Turn.takeOver hf hcache hslot
  | joining passes =>
    by_cases hover : passes.all s.isOver = true
    · have hs' : s.step clock outcome id = s.setTask id (t.withFlush .taking) := by
        simp only [hs, stepFlush, if_pos hover, afterFlush]
      have hnews : t.news id s.next (t.withFlush .taking) = [] := by
        rcases flusher_cases hf with ⟨_, rfl⟩ | ⟨_, _, rfl⟩ <;> rfl
      rw [news_step ht hs', hnews, hs']
      exact Turn.join hf (List.all_eq_true.mp hover)
    · have hs' : s.step clock outcome id = s.setTask id (t.withFlush (.joining passes)) := by
        simp only [hs, stepFlush, if_neg hover, afterFlush]
      have hnews : t.news id s.next (t.withFlush (.joining passes)) = [] := by
        rcases flusher_cases hf with ⟨_, rfl⟩ | ⟨_, _, rfl⟩ <;> rfl
      rw [news_step ht hs', hnews, hs']
      exact Turn.wait hf
  | taking =>
    have hs' : s.step clock outcome id =
        (s.setCache cache (slot.cache.takeAll now).2).setTask id
          (t.withFlush (.writing (.ofBatch slot.cache.writeBack.batch))) := hs
    have hnews : t.news id s.next
        (t.withFlush (.writing (.ofBatch slot.cache.writeBack.batch))) = [.took id cache] := by
      rcases flusher_cases hf with ⟨_, rfl⟩ | ⟨_, _, rfl⟩ <;>
        · cases hcache
          rfl
    rw [news_step ht hs', hnews, hs']
    exact Turn.take hf hcache hc
  | writing p =>
    have hp : t.pass? = some p := by
      rcases flusher_cases hf with ⟨_, rfl⟩ | ⟨_, _, rfl⟩ <;> rfl
    refine writer_turn ht hp hcache hc ?_
    have hflush : ∀ p, t.withFlush (.writing p) = t.withPass p := by
      rcases flusher_cases hf with ⟨_, rfl⟩ | ⟨_, _, rfl⟩ <;> exact fun p => rfl
    simp only [hs, stepFlush]
    rcases s.stepPass cache slot.cache clock p with ⟨progress, s'⟩
    cases progress with
    | finished r => rfl
    | further p => exact congrArg (setTask s' id) (hflush p)
    | aborted => rfl

/-- Only a flush that writes comes to its end. -/
theorem writing_of_stepFlush {cache : Nat} {slot : Slot α} {now : Instant}
    {stage : FlushStage α} {r : FlushReport}
    (h : s.stepFlush cache slot now clock stage = (s', some (.inr r))) :
    ∃ p, stage = .writing p := by
  cases stage with
  | starting => cases h
  | joining passes => cases h
  | taking => cases h
  | writing p => exact ⟨p, rfl⟩

/-- A step of a task is one of its turns. -/
theorem step_turn (ht : s.task? id = some t) :
    Turn s clock id t (s.news (.step clock outcome id)) (s.step clock outcome id) := by
  cases t with
  | lookup cache key now stage => exact lookup_turn ht
  | flush cache now stage =>
    refine flusher_turn ht rfl rfl ?_
    simp only [step, ht]
    rcases s.slots[cache]? with _ | slot
    · rfl
    · rcases hf : s.stepFlush cache slot now clock stage with ⟨s', _ | stage' | r⟩
      · simp only [hf, afterFlush]
      · simp only [hf, afterFlush, Task.withFlush]
      · obtain ⟨p, rfl⟩ := writing_of_stepFlush hf
        simp only [hf, afterFlush, Task.afterPass]
  | pass cache p =>
    rcases hc : s.cache? cache with _ | c
    · have hs : s.step clock outcome id = s := by
        simp only [step, ht, hc]
      rw [news_idle ht hs, hs]
      exact Turn.idle
    · refine writer_turn ht rfl rfl hc ?_
      simp only [step, ht, hc]
      rcases s.stepPass cache c clock p with ⟨progress, s'⟩
      cases progress <;> rfl
  | maintenance cache secs flush =>
    rcases flush with _ | ⟨now, stage⟩
    · have hs : s.step clock outcome id =
          s.setTask id (.maintenance cache secs (some (clock, .starting))) := by
        simp only [step, ht]
      rw [news_step ht hs, hs]
      exact Turn.wake
    · refine flusher_turn ht rfl rfl ?_
      simp only [step, ht]
      rcases s.slots[cache]? with _ | slot
      · rfl
      · rcases hf : s.stepFlush cache slot now clock stage with ⟨s', _ | stage' | r⟩
        · simp only [hf, afterFlush]
        · simp only [hf, afterFlush, Task.withFlush]
        · obtain ⟨p, rfl⟩ := writing_of_stepFlush hf
          simp only [hf, afterFlush, Task.afterPass]
  | answered answer =>
    have hs : s.step clock outcome id = s := by
      simp only [step, ht]
    rw [news_idle ht hs, hs]
    exact Turn.idle
  | flushed report =>
    have hs : s.step clock outcome id = s := by
      simp only [step, ht]
    rw [news_idle ht hs, hs]
    exact Turn.idle
  | ended =>
    have hs : s.step clock outcome id = s := by
      simp only [step, ht]
    rw [news_idle ht hs, hs]
    exact Turn.idle
  | aborted =>
    have hs : s.step clock outcome id = s := by
      simp only [step, ht]
    rw [news_idle ht hs, hs]
    exact Turn.idle

/-- What happens in a turn is the task's own doing. -/
theorem Turn.id_of_mem {news : List (Happening α ε)} (h : Turn s clock id t news s') :
    ∀ x ∈ news, x.id = id := by
  cases h with
  | wrote hp hcache hc =>
    intro x hx
    split at hx
    · rw [List.mem_singleton.mp hx]
      rfl
    · simp at hx
  | _ => simp [Happening.id]

end StepTurn

/-! ## An event is a move -/

section Moves

variable [Payload α] [DurableStore σ]

/-- All that an event can do: what happens and the system after it. -/
inductive Move (s : System α ε σ) :
    Event α ε σ → List (Happening α ε) → System α ε σ → Prop where
  /-- The cache or the task is not there. -/
  | idle {ev} : Move s ev [] s
  | lookup {cache q now c} (hc : s.cache? cache = some c) :
      Move s (.lookup cache q now) [.asked s.next cache q now]
        (s.add (.lookup cache (c.keyFor q) now .asking)).2
  | flush {cache now} : Move s (.flush cache now) [] (s.add (.flush cache now .starting)).2
  | maintain {cache secs} :
      Move s (.maintain cache secs) [] (s.add (.maintenance cache secs none)).2
  | invalidate {cache q c} (hc : s.cache? cache = some c) :
      Move s (.invalidate cache q) [] (s.setCache cache (c.invalidate q).2)
  | step {clock outcome id t more s'} (ht : s.task? id = some t)
      (hturn : Turn s clock id t more s') : Move s (.step clock outcome id) more s'
  | abort {id} : Move s (.abort id) [] (s.abort id)
  | disturb {change} :
      Move s (.disturb change) [] { s with store := change s.store }

/-- An event is one of its moves. -/
theorem apply_move (s : System α ε σ) (ev : Event α ε σ) : Move s ev (s.news ev) (s.apply ev) := by
  cases ev with
  | lookup cache q now =>
    rcases hc : s.cache? cache with _ | c
    · simp only [apply, addLookup, news, hc, Option.map_none, Option.getD_none,
        Option.isSome_none, Bool.false_eq_true, if_false]
      exact Move.idle
    · simp only [apply, addLookup, news, hc, Option.map_some, Option.getD_some,
        Option.isSome_some, if_true]
      exact Move.lookup hc
  | flush cache now => exact Move.flush
  | maintain cache secs => exact Move.maintain
  | invalidate cache q =>
    rcases hc : s.cache? cache with _ | c
    · simp only [apply, hc]
      exact Move.idle
    · simp only [apply, hc]
      exact Move.invalidate hc
  | step clock outcome id =>
    rcases ht : s.task? id with _ | t
    · simp only [apply, step, news, ht]
      exact Move.idle
    · exact Move.step ht (step_turn ht)
  | abort id => exact Move.abort
  | disturb change => exact Move.disturb

end Moves

end System

end MarketCache
