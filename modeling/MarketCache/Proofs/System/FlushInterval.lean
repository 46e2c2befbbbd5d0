import Mathlib.Data.List.Chain
import MarketCache.Proofs.System.Access
import MarketCache.Proofs.System.FlushPromise
import MarketCache.Proofs.System.Pending
import MarketCache.Proofs.Time.Age

/-!
# Passes and the flush interval

A lookup that comes to its end starts a pass if at least one flush interval has gone by since the
pass before, whoever started that one; a flush starts one at any time. What counts are the times
as of which lookups and flushes were asked for, and lookups may come to their ends in any order
of these times.

Main definitions:
* `PassStart`, `System.starts`: the passes that were started in a run.
* `System.Closed`: a lookup came to its end.
* `System.puts`, `System.passes`: what a pass asks the store to write.
* `System.Prompt`, `System.Spread`: when due passes start, and how far they are apart.

Results:
* `apply_paced`, `paced_run`: a cache knows the time of its last pass.
* `closing_run`: a lookup comes to its end before it answers.
* `puts_sublist`: a pass asks for the writes of its batch, each at most once.
* `due_passes_prompt_spread`: a pass starts exactly when one is due, and due passes are apart.
-/

namespace MarketCache

variable {α ε σ : Type}

/-- A pass that was started. -/
structure PassStart (α : Type) where
  /-- The task that took the batch. -/
  id : Nat
  cache : Nat
  /-- The time as of which it did so. -/
  now : Instant
  /-- Whether a lookup started it, and not a flush. -/
  due : Bool
  batch : List (PendingWrite α)
deriving DecidableEq, Repr

namespace PassStart

/-- The passes of a cache. -/
def ofCache (passes : List (PassStart α)) (cache : Nat) : List (PassStart α) :=
  passes.filter (·.cache = cache)

/-- The time of the last pass; before the first one it is the time at which the cache started. -/
def lastAt (passes : List (PassStart α)) (startedAt : Instant) : Instant :=
  (passes.getLast?.map (·.now)).getD startedAt

@[simp] theorem lastAt_concat (passes : List (PassStart α)) (p : PassStart α)
    (startedAt : Instant) : lastAt (passes ++ [p]) startedAt = p.now := by
  simp [lastAt]

theorem ofCache_concat (passes : List (PassStart α)) (p : PassStart α) (cache : Nat) :
    ofCache (passes ++ [p]) cache =
      if p.cache = cache then ofCache passes cache ++ [p] else ofCache passes cache := by
  unfold ofCache
  rw [List.filter_append]
  by_cases h : p.cache = cache
  · simp [h]
  · simp [h]

end PassStart

/-- The time as of which a task takes all that waits, and whether it does so only if a pass is
    due. -/
def Task.takesAt? : Task α ε → Option (Instant × Bool)
  | .lookup _ _ now _ => some (now, true)
  | .flush _ now _ => some (now, false)
  | .maintenance _ _ (some (now, _)) => some (now, false)
  | _ => none

/-- The answer of a lookup that has come to its end. -/
def LookupStage.closed? : LookupStage α ε → Option (Except ε (Lookup α))
  | .detaching answer _ => some answer
  | .writing answer _ => some answer
  | _ => none

/-- Whether a task has taken what it takes, or is over. -/
def Task.isSpent : Task α ε → Bool
  | .lookup _ _ _ stage => stage.closed?.isSome
  | .pass _ _ => true
  | t => t.isOver

/-- The flush interval of a cache and the time of its last pass. -/
def WriteBack.pace (w : WriteBack α) : UInt64 × Instant := (w.flushIntervalSecs, w.lastFlushAt)

namespace System

section Starts

variable [Payload α] [DurableStore σ]

/-- The pass that an event starts, if any; its batch is what the task has in hand afterwards. -/
def start? (s : System α ε σ) : Event α ε σ → Option (PassStart α)
  | .step clock outcome id =>
    match s.news (.step clock outcome id), s.task? id, (s.step clock outcome id).task? id with
    | [.took _ cache], some t, some t' =>
      t.takesAt?.map fun (now, due) => ⟨id, cache, now, due, t'.unwritten⟩
    | _, _, _ => none
  | _ => none

/-- The passes that were started in a run, the oldest first. -/
def starts (s : System α ε σ) : List (Event α ε σ) → List (PassStart α)
  | [] => []
  | e :: events => (s.start? e).toList ++ (s.apply e).starts events

theorem starts_append (s : System α ε σ) (events more : List (Event α ε σ)) :
    s.starts (events ++ more) = s.starts events ++ (s.run events).starts more := by
  induction events generalizing s with
  | nil => rfl
  | cons e events ih =>
    rw [List.cons_append, starts, starts, ih, List.append_assoc]
    rfl

theorem starts_concat (s : System α ε σ) (events : List (Event α ε σ)) (e : Event α ε σ) :
    s.starts (events ++ [e]) = s.starts events ++ ((s.run events).start? e).toList := by
  rw [starts_append]
  simp only [starts, List.append_nil]

/-! ## What starts a pass -/

variable {s s' : System α ε σ} {clock : Instant} {outcome : Option (Except ε α)} {id : Nat}
  {t : Task α ε} {more : List (Happening α ε)}

/-- A step takes all that waits in a cache, or leaves the pace of every cache as it is. -/
theorem Turn.paced (h : Turn s clock id t more s') :
    ((∀ i k, .took i k ∉ more) ∧
      ∀ k, (s'.cache? k).map (·.writeBack.pace) = (s.cache? k).map (·.writeBack.pace)) ∨
    ∃ cache c now due t', more = [.took id cache] ∧ t.takesAt? = some (now, due) ∧
      s.cache? cache = some c ∧ s' = (s.setCache cache (c.takeAll now).2).setTask id t' ∧
      t'.unwritten = c.writeBack.batch ∧
      (due = true →
        t'.isSpent = true ∧ ∃ key answer, t = .lookup cache key now (.closing answer)) := by
  have hcache : ∀ {cache c} {c' : TieredCache α} {t'}, s.cache? cache = some c →
      c'.writeBack.pace = c.writeBack.pace →
      ∀ k, (((s.setCache cache c').setTask id t').cache? k).map (·.writeBack.pace) =
        (s.cache? k).map (·.writeBack.pace) := by
    intro cache c c' t' hc hpace k
    rw [cache?_setTask, cache?_setCache]
    split
    · next heq =>
      rw [← heq, hc]
      exact congrArg some hpace
    · rfl
  cases h with
  | hot hc he hfresh => exact Or.inl ⟨by simp, hcache hc rfl⟩
  | cold hc => exact Or.inl ⟨by simp, hcache hc rfl⟩
  | durable hc hfresh => exact Or.inl ⟨by simp, hcache hc rfl⟩
  | call counters hc => exact Or.inl ⟨by simp, hcache hc rfl⟩
  | fetched payload hc => exact Or.inl ⟨by simp, hcache hc rfl⟩
  | @hand cache key now answer c hc =>
    exact Or.inr ⟨cache, c, now, true, _, rfl, rfl, hc, rfl, rfl, fun _ => ⟨rfl, key, answer, rfl⟩⟩
  | @begin cache key now answer c hc =>
    exact Or.inr ⟨cache, c, now, true, _, rfl, rfl, hc, rfl, rfl, fun _ => ⟨rfl, key, answer, rfl⟩⟩
  | detach cache batch =>
    refine Or.inl ⟨by simp, fun k => congrArg (Option.map _) ?_⟩
    exact cache?_modify_inFlight _ cache k (· ++ [s.next])
  | wrote hp howner hc =>
    refine Or.inl ⟨fun i k hmem => ?_, hcache hc rfl⟩
    split at hmem <;> simp at hmem
  | @takeOver _ now cache slot hf howner hslot =>
    exact Or.inl ⟨by simp, fun k => congrArg (Option.map _) (cache?_setSlot s cache k hslot [])⟩
  | @take _ now cache c hf howner hc =>
    refine Or.inr ⟨cache, c, now, false, _, rfl, ?_, hc, rfl, unwritten_withFlush hf _, ?_⟩
    · rcases flusher_cases hf with ⟨_, rfl⟩ | ⟨_, _, rfl⟩ <;> rfl
    · intro hdue
      cases hdue
  | _ => exact Or.inl ⟨by simp, fun _ => rfl⟩

theorem start?_eq_none (h : ∀ i k, .took i k ∉ s.news (.step clock outcome id)) :
    s.start? (.step clock outcome id) = none := by
  simp only [start?]
  split
  · next i k _ _ hnews _ _ =>
    rw [hnews] at h
    exact absurd List.mem_cons_self (h i k)
  · rfl

theorem start?_eq_some {cache : Nat} {now : Instant} {due : Bool} {t' : Task α ε}
    (hnews : s.news (.step clock outcome id) = [.took id cache]) (ht : s.task? id = some t)
    (htake : t.takesAt? = some (now, due))
    (ht' : (s.step clock outcome id).task? id = some t') :
    s.start? (.step clock outcome id) = some ⟨id, cache, now, due, t'.unwritten⟩ := by
  simp only [start?, hnews, ht, ht', htake, Option.map_some]

/-- A lookup that comes to its end starts a pass exactly when one is due. -/
theorem start?_of_closing {cache : Nat} {c : TieredCache α} {key : String} {now : Instant}
    {answer : Except ε (Lookup α)}
    (ht : s.task? id = some (.lookup cache key now (.closing answer)))
    (hc : s.cache? cache = some c) :
    s.start? (.step clock outcome id) =
      if c.writeBack.isDue now then some ⟨id, cache, now, true, c.writeBack.batch⟩ else none := by
  have hstep : s.step clock outcome id =
      s.stepLookup id cache c key now clock outcome (.closing answer) := by
    simp only [step, ht, hc]
  by_cases hdue : c.writeBack.isDue now = true
  · obtain ⟨stage, hs, htook, hbatch⟩ : ∃ stage,
        s.step clock outcome id =
          (s.setCache cache (c.takeAll now).2).setTask id (.lookup cache key now stage) ∧
        Task.news id s.next (.lookup cache key now (.closing answer))
          (.lookup cache key now stage) = [.took id cache] ∧
        (Task.lookup cache key now stage).unwritten = c.writeBack.batch := by
      refine ⟨if c.backgroundFlush then .detaching answer c.writeBack.batch
        else .writing answer (.ofBatch c.writeBack.batch), ?_, ?_, ?_⟩
      · simp only [hstep, stepLookup, takeDue?_eq, if_pos hdue]
        rfl
      · split <;> rfl
      · split <;> rfl
    have ht' : (s.step clock outcome id).task? id = some (.lookup cache key now stage) := by
      rw [hs, task?_setTask, if_pos rfl]
    rw [if_pos hdue, start?_eq_some ((news_step ht hs).trans htook) ht rfl ht', hbatch]
  · have hs : s.step clock outcome id = s.setTask id (.answered answer) := by
      simp only [hstep, stepLookup, takeDue?_eq, if_neg hdue]
    rw [if_neg hdue]
    refine start?_eq_none fun i k => ?_
    rw [news_step ht hs]
    simp [Task.news]

/-- An event starts no pass and leaves the pace of every cache as it is, or starts one with all
    that waits in a cache, which then knows its time. -/
theorem apply_paced (s : System α ε σ) (ev : Event α ε σ) :
    (s.start? ev = none ∧
      ∀ k, ((s.apply ev).cache? k).map (·.writeBack.pace) =
        (s.cache? k).map (·.writeBack.pace)) ∨
    ∃ p c, s.start? ev = some p ∧ s.cache? p.cache = some c ∧ p.batch = c.writeBack.batch ∧
      (p.due = true → c.writeBack.isDue p.now = true ∧
        ∃ t, (s.apply ev).task? p.id = some t ∧ t.isSpent = true ∧ t.unwritten = p.batch) ∧
      ∀ k, ((s.apply ev).cache? k).map (·.writeBack.pace) =
        (s.cache? k).map fun c =>
          if p.cache = k then (c.writeBack.flushIntervalSecs, p.now) else c.writeBack.pace := by
  have hmove := apply_move s ev
  generalize hmore : s.news ev = more at hmove
  generalize hs' : s.apply ev = s' at hmove
  cases hmove with
  | @step clock outcome id t _ _ ht hturn =>
    rcases hturn.paced with
      ⟨htook, hpace⟩ | ⟨cache, c, now, due, t', rfl, htake, hc, rfl, hbatch, hdue⟩
    · exact Or.inl ⟨start?_eq_none (hmore ▸ htook), hpace⟩
    · have ht' : (s.step clock outcome id).task? id = some t' := by
        show (s.apply (.step clock outcome id)).task? id = some t'
        rw [hs', task?_setTask, if_pos rfl]
      have hstart := start?_eq_some hmore ht htake ht'
      refine Or.inr ⟨_, c, hstart, hc, hbatch, fun h => ?_, fun k => ?_⟩
      · obtain ⟨hspent, key, answer, rfl⟩ := hdue h
        refine ⟨?_, t', task?_setTask_self _ id t', hspent, rfl⟩
        rw [start?_of_closing ht hc] at hstart
        split at hstart
        · assumption
        · simp at hstart
      · rw [cache?_setTask, cache?_setCache]
        by_cases hk : cache = k
        · rw [← hk, hc]
          simp only [if_true]
          rfl
        · simp only [if_neg hk]
  | invalidate hc =>
    refine Or.inl ⟨rfl, fun k => ?_⟩
    rw [cache?_setCache]
    split
    · next heq =>
      rw [← heq, hc]
      rfl
    · rfl
  | abort =>
    refine Or.inl ⟨rfl, fun k => ?_⟩
    exact abort_induction (P := fun s' => (s'.cache? k).map _ = (s.cache? k).map _) rfl
      (fun _ _ _ _ _ h => h) _
  | idle =>
    refine Or.inl ⟨?_, fun _ => rfl⟩
    cases ev with
    | step clock outcome id => exact start?_eq_none (by simp [hmore])
    | _ => rfl
  | _ => exact Or.inl ⟨rfl, fun _ => rfl⟩

/-! ## When passes start -/

variable {store : σ} {specs : List (String × CacheSettings × Instant)}
  {events : List (Event α ε σ)} {cache : Nat} {space : String} {settings : CacheSettings}
  {startedAt : Instant}

/-- A cache knows the time of its last pass. -/
theorem paced_run (store : σ) (hspec : specs[cache]? = some (space, settings, startedAt))
    (events : List (Event α ε σ)) :
    (((ofSpecs store specs).run events).cache? cache).map (·.writeBack.pace) =
      some (settings.flushIntervalSecs,
        PassStart.lastAt (PassStart.ofCache ((ofSpecs store specs).starts events) cache)
          startedAt) := by
  induction events using List.reverseRecOn with
  | nil =>
    show Option.map _ ((ofSpecs store specs).cache? cache) = _
    simp only [cache?, ofSpecs, ofCaches, List.getElem?_map, hspec, Option.map_some]
    rfl
  | append_singleton events ev ih =>
    rw [run_concat, starts_concat]
    rcases apply_paced ((ofSpecs store specs).run events) ev with
      ⟨hnone, hpace⟩ | ⟨p, c, hsome, hc, -, -, hpace⟩
    · rw [hpace, ih, hnone, Option.toList_none, List.append_nil]
    · rw [hpace, hsome, Option.toList_some, PassStart.ofCache_concat]
      obtain ⟨c', hc', hpace'⟩ := Option.map_eq_some_iff.mp ih
      rw [hc', Option.map_some]
      split
      · have hinterval : c'.writeBack.flushIntervalSecs = settings.flushIntervalSecs :=
          congrArg Prod.fst hpace'
        rw [PassStart.lastAt_concat, hinterval]
      · rw [hpace']

/-- A pass is due at a time exactly when the flush interval has gone by since the last one. -/
theorem isDue_iff_of_run (hspec : specs[cache]? = some (space, settings, startedAt))
    {c : TieredCache α} (hc : ((ofSpecs store specs).run events).cache? cache = some c)
    (now : Instant) :
    c.writeBack.isDue now = true ↔
      Duration.ofSeconds settings.flushIntervalSecs ≤
        now.since (PassStart.lastAt
          (PassStart.ofCache ((ofSpecs store specs).starts events) cache) startedAt) := by
  have hpace := paced_run store hspec events
  rw [hc] at hpace
  obtain ⟨hinterval, hlast⟩ := Prod.mk.inj (Option.some.inj hpace)
  unfold WriteBack.isDue
  rw [hinterval, hlast, decide_eq_true_iff]

/-- A due pass comes at least one flush interval after the pass before it. -/
theorem due_run (hspec : specs[cache]? = some (space, settings, startedAt))
    {before after : List (PassStart α)} {p : PassStart α}
    (hsplit : PassStart.ofCache ((ofSpecs store specs : System α ε σ).starts events) cache =
      before ++ p :: after) (hdue : p.due = true) :
    Duration.ofSeconds settings.flushIntervalSecs ≤
      p.now.since (PassStart.lastAt before startedAt) := by
  induction events using List.reverseRecOn generalizing after with
  | nil => simp [starts, PassStart.ofCache] at hsplit
  | append_singleton events ev ih =>
    rw [starts_concat] at hsplit
    rcases apply_paced ((ofSpecs store specs).run events) ev with
      ⟨hnone, -⟩ | ⟨q, c, hsome, hc, -, hisDue, -⟩
    · rw [hnone, Option.toList_none, List.append_nil] at hsplit
      exact ih hsplit
    · rw [hsome, Option.toList_some, PassStart.ofCache_concat] at hsplit
      split at hsplit
      · next hcache =>
        rcases List.eq_nil_or_concat' after with rfl | ⟨after, q', rfl⟩
        · obtain ⟨rfl, hp⟩ := List.append_inj' hsplit rfl
          obtain rfl := List.singleton_inj.mp hp
          rw [hcache] at hc
          exact (isDue_iff_of_run hspec hc _).mp (hisDue hdue).1
        · rw [← List.cons_append, ← List.append_assoc] at hsplit
          exact ih (List.append_inj' hsplit rfl).1
      · exact ih hsplit

end Starts

end System

/-! ## The end of a lookup -/

namespace System

section Closed

variable [Payload α] [DurableStore σ]

/-- Whether a lookup came to its end in some events, and before which of them it was about to. -/
def Closed (s : System α ε σ) (events : List (Event α ε σ)) (id cache : Nat) (now : Instant)
    (answer : Except ε (Lookup α)) : Prop :=
  ∃ before clock outcome after key,
    events = before ++ .step clock outcome id :: after ∧
    (s.run before).task? id = some (.lookup cache key now (.closing answer))

/-- What has become of a lookup as of an instant. -/
inductive Closing (s : System α ε σ) (events : List (Event α ε σ)) (id cache : Nat)
    (now : Instant) : Task α ε → Prop where
  | underway {key stage}
      (h : ∀ answer, stage.closed? = some answer → s.Closed events id cache now answer) :
      Closing s events id cache now (.lookup cache key now stage)
  | answered {answer} (h : s.Closed events id cache now answer) :
      Closing s events id cache now (.answered answer)
  | aborted : Closing s events id cache now .aborted

variable {s s' : System α ε σ} {events : List (Event α ε σ)} {id cache : Nat} {now : Instant}
  {answer : Except ε (Lookup α)} {t : Task α ε}

theorem Closed.concat (h : s.Closed events id cache now answer) (ev : Event α ε σ) :
    s.Closed (events ++ [ev]) id cache now answer := by
  obtain ⟨before, clock, outcome, after, key, rfl, ht⟩ := h
  refine ⟨before, clock, outcome, after ++ [ev], key, ?_, ht⟩
  rw [List.append_assoc, List.cons_append]

theorem closed_concat {key : String} (clock : Instant) (outcome : Option (Except ε α))
    (ht : (s.run events).task? id = some (.lookup cache key now (.closing answer))) :
    s.Closed (events ++ [.step clock outcome id]) id cache now answer :=
  ⟨events, clock, outcome, [], key, rfl, ht⟩

theorem Closing.concat (h : Closing s events id cache now t) (ev : Event α ε σ) :
    Closing s (events ++ [ev]) id cache now t := by
  cases h with
  | underway h => exact .underway fun answer hclosed => (h answer hclosed).concat ev
  | answered h => exact .answered (h.concat ev)
  | aborted => exact .aborted

/-- A lookup that takes a step comes to its end at one event and answers later. -/
theorem Closing.turn {clock : Instant} {outcome : Option (Except ε α)}
    {more : List (Happening α ε)} (h : Closing s events id cache now t)
    (ht : (s.run events).task? id = some t) (hturn : Turn (s.run events) clock id t more s') :
    ∃ t', s'.task? id = some t' ∧
      Closing s (events ++ [.step clock outcome id]) id cache now t' := by
  have hconcat := h.concat (.step clock outcome id)
  cases hturn with
  | idle => exact ⟨t, ht, hconcat⟩
  | @rest cache' key now' answer =>
    refine ⟨_, task?_setTask_self _ id _, ?_⟩
    cases h with
    | underway h => exact .answered (closed_concat clock outcome ht)
  | @hand cache' key now' answer c hc =>
    refine ⟨_, task?_setTask_self _ id _, ?_⟩
    cases h with
    | underway h =>
      refine .underway fun answer' heq => ?_
      cases heq
      exact closed_concat clock outcome ht
  | @begin cache' key now' answer c hc =>
    refine ⟨_, task?_setTask_self _ id _, ?_⟩
    cases h with
    | underway h =>
      refine .underway fun answer' heq => ?_
      cases heq
      exact closed_concat clock outcome ht
  | detach cache' batch =>
    refine ⟨_, task?_setTask_self _ id _, ?_⟩
    cases hconcat with
    | underway h => exact .answered (h _ rfl)
  | write store hp howner hc hw ha =>
    refine ⟨_, task?_setTask_self _ id _, ?_⟩
    cases hconcat with
    | @underway key stage hclosed =>
      cases stage with
      | writing answer p => exact .underway fun answer' heq => hclosed answer' heq
      | _ => cases hp
    | _ => cases hp
  | broke store hp howner hc hw =>
    exact ⟨_, task?_setTask_self _ id _, .aborted⟩
  | wrote hp howner hc =>
    refine ⟨_, task?_setTask_self _ id _, ?_⟩
    cases hconcat with
    | @underway key stage hclosed =>
      cases stage with
      | writing answer p => exact .answered (hclosed answer rfl)
      | _ => cases hp
    | _ => cases hp
  | wake => cases h
  | takeOver hf howner hslot => cases h <;> cases hf
  | wait hf => cases h <;> cases hf
  | join hf hover => cases h <;> cases hf
  | take hf howner hc => cases h <;> cases hf
  | _ =>
    refine ⟨_, task?_setTask_self _ id _, ?_⟩
    cases h with
    | underway h => exact .underway fun answer heq => nomatch heq

theorem Turn.not_asked {clock : Instant} {more : List (Happening α ε)}
    (h : Turn s clock id t more s') {k : Nat} {q : LogicalQuery} :
    .asked k cache q now ∉ more := by
  cases h with
  | wrote hp howner hc => split <;> simp
  | _ => simp

/-- Every lookup comes to its end before it answers. -/
theorem closing_run {store : σ} {specs : List (String × CacheSettings × Instant)}
    {q : LogicalQuery}
    (h : .asked id cache q now ∈ (ofSpecs store specs).history events) :
    ∃ t, ((ofSpecs store specs).run events).task? id = some t ∧
      Closing (ofSpecs store specs) events id cache now t := by
  induction events using List.reverseRecOn with
  | nil => exact absurd h List.not_mem_nil
  | append_singleton events ev ih =>
    have hnumbered := numbered_run store specs events
    rw [history_concat] at h
    rw [run_concat]
    have hmove := apply_move ((ofSpecs store specs).run events) ev
    generalize hmore : ((ofSpecs store specs).run events).news ev = more at hmove h
    generalize hs' : ((ofSpecs store specs).run events).apply ev = s' at hmove
    rcases List.mem_append.mp h with hold | hnew
    · obtain ⟨t, ht, hclosing⟩ := ih hold
      have hid := hnumbered.tasks id t ht
      have hadd : ∀ t', (((ofSpecs store specs).run events).add t').2.task? id = some t := by
        intro t'
        exact (task?_setTask _ _ id t').trans ((if_neg (Nat.ne_of_gt hid)).trans ht)
      cases hmove with
      | @step clock outcome k t' _ _ ht' hturn =>
        by_cases hk : k = id
        · subst hk
          rw [ht] at ht'
          cases ht'
          exact hclosing.turn ht hturn
        · exact ⟨t, (hturn.task?_of_ne hk hid).trans ht, hclosing.concat _⟩
      | @abort k =>
        rcases task?_abort_cases ((ofSpecs store specs).run events) k id with hsame | ⟨-, habort⟩
        · exact ⟨t, hsame.trans ht, hclosing.concat _⟩
        · exact ⟨.aborted, habort, .aborted⟩
      | lookup hc => exact ⟨t, hadd _, hclosing.concat _⟩
      | flush => exact ⟨t, hadd _, hclosing.concat _⟩
      | maintain => exact ⟨t, hadd _, hclosing.concat _⟩
      | _ => exact ⟨t, ht, hclosing.concat _⟩
    · cases hmove with
      | lookup hc =>
        cases List.mem_singleton.mp hnew
        exact ⟨_, task?_add_self _ _, .underway fun _ heq => nomatch heq⟩
      | step ht hturn => exact absurd hnew hturn.not_asked
      | _ => simp at hnew

end Closed

end System

/-! ## The puts of a pass -/

/-- The task that a batch is with after something happened. -/
def heir (id : Nat) : List (Happening α ε) → Nat
  | .handed id' pass :: _ => if id' = id then pass else id
  | _ => id

theorem heir_of_ne {id : Nat} {more : List (Happening α ε)} (h : ∀ x ∈ more, x.id ≠ id) :
    heir id more = id := by
  cases more with
  | nil => rfl
  | cons x more =>
    cases x with
    | handed id' pass => exact if_neg (h _ List.mem_cons_self)
    | _ => rfl

namespace System

section Puts

variable [Payload α] [DurableStore σ]

/-- The write that a task asks for in an event, if any. -/
def putBy? (s : System α ε σ) (id : Nat) : Event α ε σ → Option (StoreWrite α)
  | .step clock outcome id' => if id' = id then s.write? (.step clock outcome id') else none
  | _ => none

/-- The writes that are asked for by the task that a batch is with, the oldest first. -/
def puts (s : System α ε σ) (id : Nat) : List (Event α ε σ) → List (StoreWrite α)
  | [] => []
  | ev :: events => (s.putBy? id ev).toList ++ (s.apply ev).puts (heir id (s.news ev)) events

/-- The passes that were started in a run, and what each of them asked the store to write. -/
def passes (s : System α ε σ) :
    List (Event α ε σ) → List (PassStart α × List (StoreWrite α))
  | [] => []
  | ev :: events =>
    ((s.start? ev).map fun p => (p, (s.apply ev).puts p.id events)).toList ++
      (s.apply ev).passes events

theorem map_fst_passes (s : System α ε σ) (events : List (Event α ε σ)) :
    (s.passes events).map (·.1) = s.starts events := by
  induction events generalizing s with
  | nil => rfl
  | cons ev events ih =>
    rw [passes, starts, List.map_append, ih]
    rcases s.start? ev with _ | p <;> rfl

variable {s s' : System α ε σ} {clock : Instant} {outcome : Option (Except ε α)} {id : Nat}
  {t : Task α ε} {more : List (Happening α ε)}

/-- A task that has taken what it takes keeps it, hands it on or attempts it, if it asks for no
    write. -/
theorem Turn.spent (hturn : Turn s clock id t more s') (hspent : t.isSpent = true)
    (ht : s.task? id = some t) (hlt : id < s.next) :
    ∃ t', s'.task? (heir id more) = some t' ∧ t'.isSpent = true ∧
      t'.unwritten.Sublist t.unwritten := by
  cases hturn with
  | idle => exact ⟨t, ht, hspent, List.Sublist.refl _⟩
  | @detach key now answer cache batch =>
    refine ⟨.pass cache (.ofBatch batch), ?_, rfl, List.Sublist.refl _⟩
    have hheir : heir id [.handed id s.next, .answered id answer] = s.next := if_pos rfl
    rw [hheir, task?_setTask, if_neg (Nat.ne_of_lt hlt)]
    exact task?_add_self s _
  | @write _ cache c w rest r a store hp hcache hc hw ha =>
    refine ⟨_, task?_setTask_self _ id _, ?_, ?_⟩
    · rcases writer_cases hp with ⟨_, _, _, _, rfl⟩ | ⟨_, _, rfl⟩ | ⟨_, rfl⟩ | ⟨_, _, _, rfl⟩ <;>
        first | rfl | cases hspent
    · rw [unwritten_of_pass? hp, unwritten_of_pass? (pass?_withPass hp _)]
      exact List.sublist_cons_self w rest
  | broke store hp hcache hc hw =>
    exact ⟨.aborted, task?_setTask_self _ id _, rfl, List.nil_sublist _⟩
  | @wrote _ cache c r hp hcache hc =>
    refine ⟨t.afterPass r, ?_, ?_, ?_⟩
    · split <;> exact task?_setTask_self _ id _
    · rcases writer_cases hp with ⟨_, _, _, _, rfl⟩ | ⟨_, _, rfl⟩ | ⟨_, rfl⟩ | ⟨_, _, _, rfl⟩ <;>
        first | rfl | cases hspent
    · rcases writer_cases hp with ⟨_, _, _, _, rfl⟩ | ⟨_, _, rfl⟩ | ⟨_, rfl⟩ | ⟨_, _, _, rfl⟩ <;>
        exact List.nil_sublist _
  | takeOver hf hcache hslot =>
    rcases flusher_cases hf with ⟨_, rfl⟩ | ⟨_, _, rfl⟩ <;> cases hspent
  | wait hf => rcases flusher_cases hf with ⟨_, rfl⟩ | ⟨_, _, rfl⟩ <;> cases hspent
  | join hf hover => rcases flusher_cases hf with ⟨_, rfl⟩ | ⟨_, _, rfl⟩ <;> cases hspent
  | take hf hcache hc => rcases flusher_cases hf with ⟨_, rfl⟩ | ⟨_, _, rfl⟩ <;> cases hspent
  | _ => cases hspent

/-- What is asked for by the task that a batch is with is the next of its writes. -/
theorem apply_spent (hnext : ∀ id t, s.task? id = some t → id < s.next)
    (ht : s.task? id = some t) (hspent : t.isSpent = true) (ev : Event α ε σ) :
    ∃ t', (s.apply ev).task? (heir id (s.news ev)) = some t' ∧ t'.isSpent = true ∧
      ((s.putBy? id ev).toList.map (·.entry) ++ t'.unwritten.map (·.entry)).Sublist
        (t.unwritten.map (·.entry)) := by
  rcases hput : s.putBy? id ev with _ | x
  · have hlt := hnext id t ht
    have hkeep : ∀ {s' : System α ε σ} {more : List (Happening α ε)},
        s'.task? id = s.task? id → (∀ x ∈ more, x.id ≠ id) →
        ∃ t', s'.task? (heir id more) = some t' ∧ t'.isSpent = true ∧
          t'.unwritten.Sublist t.unwritten := by
      intro s' more hsame hother
      rw [heir_of_ne hother]
      exact ⟨t, hsame.trans ht, hspent, List.Sublist.refl _⟩
    have hadd : ∀ t', (s.add t').2.task? id = s.task? id :=
      fun t' => task?_add_of_ne s t' (Nat.ne_of_lt hlt)
    have hnone : ∃ t', (s.apply ev).task? (heir id (s.news ev)) = some t' ∧ t'.isSpent = true ∧
        t'.unwritten.Sublist t.unwritten := by
      have hmove := apply_move s ev
      generalize s.news ev = more at hmove ⊢
      generalize s.apply ev = s' at hmove ⊢
      cases hmove with
      | @step clock outcome k t' _ _ ht' hturn =>
        by_cases hk : k = id
        · subst hk
          rw [ht] at ht'
          cases ht'
          exact hturn.spent hspent ht hlt
        · exact hkeep (hturn.task?_of_ne hk hlt) fun x hx => (hturn.id_of_mem x hx).trans_ne hk
      | @abort k =>
        rcases task?_abort_cases s k id with hsame | ⟨-, habort⟩
        · exact hkeep hsame (by simp)
        · exact ⟨.aborted, habort, rfl, List.nil_sublist _⟩
      | lookup hc =>
        refine hkeep (hadd _) fun x hx => ?_
        rw [List.mem_singleton.mp hx]
        exact Nat.ne_of_gt hlt
      | flush => exact hkeep (hadd _) (by simp)
      | maintain => exact hkeep (hadd _) (by simp)
      | _ => exact hkeep rfl (by simp)
    obtain ⟨t', ht', hspent', hsub⟩ := hnone
    exact ⟨t', ht', hspent', hsub.map _⟩
  · obtain ⟨clock, outcome, rfl, hwrite⟩ : ∃ clock outcome,
        ev = .step clock outcome id ∧ s.write? (.step clock outcome id) = some x := by
      cases ev with
      | step clock outcome k =>
        simp only [putBy?] at hput
        split at hput
        · next hk => exact ⟨clock, outcome, hk ▸ rfl, hk ▸ hput⟩
        · cases hput
      | _ => cases hput
    obtain ⟨cache, c, w, rest, r, hp, -, -, -, hx, hstep, hnews⟩ := step_of_write? ht hwrite
    have hheir : heir id (s.news (.step clock outcome id)) = id := by
      rw [hnews]
      split <;> rfl
    have hentry : x.entry = w.entry := by
      rw [hx]
    rw [hheir]
    show ∃ t', (s.step clock outcome id).task? id = some t' ∧ _
    rw [hstep, unwritten_of_pass? hp]
    refine ⟨_, task?_setTask_self _ id _, ?_, ?_⟩
    · split
      · rfl
      · rcases writer_cases hp with ⟨_, _, _, _, rfl⟩ | ⟨_, _, rfl⟩ | ⟨_, rfl⟩ | ⟨_, _, _, rfl⟩ <;>
          first | rfl | cases hspent
    · simp only [Option.toList_some, List.map_cons, List.map_nil, List.singleton_append, hentry]
      refine List.Sublist.cons_cons _ (List.Sublist.map _ ?_)
      split
      · exact List.nil_sublist _
      · rw [unwritten_of_pass? (pass?_withPass hp _)]

/-- What is asked for by those that a batch is with, one after the other, are writes of the batch,
    each at most once and in their order. -/
theorem puts_sublist (hnumbered : s.Numbered more) (ht : s.task? id = some t)
    (hspent : t.isSpent = true) (events : List (Event α ε σ)) :
    ((s.puts id events).map (·.entry)).Sublist (t.unwritten.map (·.entry)) := by
  induction events generalizing s id t more with
  | nil => exact List.nil_sublist _
  | cons ev events ih =>
    obtain ⟨t', ht', hspent', hsub⟩ := apply_spent hnumbered.tasks ht hspent ev
    have hrest := ih (hnumbered.apply ev) ht' hspent'
    rw [puts, List.map_append]
    exact ((List.Sublist.refl _).append hrest).trans hsub

/-- A due pass asks for no key more than once. -/
theorem nodup_keys_of_mem_passes (hnumbered : s.Numbered more) (hkeyed : s.Keyed)
    {events : List (Event α ε σ)} {p : PassStart α} {writes : List (StoreWrite α)}
    (hmem : (p, writes) ∈ s.passes events) (hdue : p.due = true) :
    (writes.map (·.entry.key)).Nodup := by
  induction events generalizing s more with
  | nil => exact absurd hmem List.not_mem_nil
  | cons ev events ih =>
    rw [passes, List.mem_append, Option.mem_toList] at hmem
    rcases hmem with hhead | hrest
    · obtain ⟨p', hstart, heq⟩ := Option.map_eq_some_iff.mp hhead
      cases heq
      rcases apply_paced s ev with ⟨hnone, -⟩ | ⟨q, c, hsome, hc, hbatch, hstarted, -⟩
      · cases hnone.symm.trans hstart
      · cases hsome.symm.trans hstart
        obtain ⟨-, t, ht, hspent, hunwritten⟩ := hstarted hdue
        have hsub := (puts_sublist (hnumbered.apply ev) ht hspent events).map Entry.key
        rw [hunwritten, hbatch, List.map_map, List.map_map] at hsub
        exact hsub.nodup (WriteBack.nodup_keys_batch (hkeyed _ c hc))
    · exact ih (hnumbered.apply ev) (hkeyed.apply ev) hrest

end Puts

end System

/-! ## Passes apart -/

namespace PassStart

/-- What holds of a pass and a later one if the intervals of due passes are kept: the later one is
    not earlier, and if it is due, the interval has gone by. -/
def Apart (interval : UInt64) (p q : PassStart α) : Prop :=
  p.now.nanos ≤ q.now.nanos ∧
    (q.due = true → p.now.nanos + (Duration.ofSeconds interval).nanos ≤ q.now.nanos)

instance (interval : UInt64) :
    Trans (@Apart α interval) (@Apart α interval) (@Apart α interval) where
  trans := by
    rintro p q r ⟨hpq, -⟩ ⟨hqr, hdue⟩
    refine ⟨Int.le_trans hpq hqr, fun h => ?_⟩
    have hle := hdue h
    omega

variable {interval : UInt64} {starts : List (PassStart α)}

/-- Passes are apart if due ones come an interval after the pass before them and the others not
    before it. -/
theorem pairwise_apart (hleap : ∀ p ∈ starts, p.now.isLeap = false)
    (hgap : ∀ before p q after, starts = before ++ p :: q :: after → q.due = true →
      Duration.ofSeconds interval ≤ q.now.since p.now)
    (hflush : ∀ before p q after, starts = before ++ p :: q :: after → q.due = false →
      p.now ≤ q.now) : starts.Pairwise (Apart interval) := by
  refine List.isChain_iff_pairwise.mp (List.isChain_iff_forall_rel_of_append_cons_cons.mpr ?_)
  intro p q before after hsplit
  have hp := hleap p (by simp [hsplit])
  have hq := hleap q (by simp [hsplit])
  have hdue : q.due = true →
      p.now.nanos + (Duration.ofSeconds interval).nanos ≤ q.now.nanos := by
    intro h
    have hle := hgap before p q after hsplit h
    rw [Duration.le_def, Instant.nanos_since hq hp] at hle
    omega
  refine ⟨?_, hdue⟩
  by_cases h : q.due = true
  · have hle := hdue h
    have hnonneg := Duration.ofSeconds_nonneg interval
    omega
  · exact (Instant.le_iff_nanos_le hp hq).mp
      (hflush before p q after hsplit (Bool.not_eq_true _ ▸ h))

end PassStart

namespace System

section Spread

/-- The due passes in a window of time. -/
def dueWithin (passes : List (PassStart α × List (StoreWrite α))) (first last : Instant) :
    List (PassStart α × List (StoreWrite α)) :=
  passes.filter fun p => p.1.due && decide (first ≤ p.1.now) && decide (p.1.now ≤ last)

/-- Whether due passes are at least an interval apart from the passes before them. -/
structure Spread (passes : List (PassStart α × List (StoreWrite α))) (interval : UInt64) :
    Prop where
  gap : ∀ before p q after, passes.map (·.1) = before ++ p :: q :: after → q.due = true →
    Duration.ofSeconds interval ≤ q.now.since p.now
  ordered : ((passes.map (·.1)).filter (·.due)).Pairwise (·.now ≤ ·.now)
  window : ∀ first last, first.isLeap = false → last.isLeap = false →
    last.since first < Duration.ofSeconds interval → (dueWithin passes first last).length ≤ 1
  once : ∀ first last, first.isLeap = false → last.isLeap = false →
    last.since first < Duration.ofSeconds interval →
    ((dueWithin passes first last).flatMap fun p => p.2.map (·.entry.key)).Nodup

variable {passes : List (PassStart α × List (StoreWrite α))} {interval : UInt64}

/-- Of passes that are apart at most one that is due lies in a shorter window. -/
theorem length_dueWithin_le_one (hleap : ∀ p ∈ passes, p.1.now.isLeap = false)
    (hpairwise : (passes.map (·.1)).Pairwise (PassStart.Apart interval)) {first last : Instant}
    (hfirst : first.isLeap = false) (hlast : last.isLeap = false)
    (hlt : last.since first < Duration.ofSeconds interval) :
    (dueWithin passes first last).length ≤ 1 := by
  have hinside : ∀ x ∈ dueWithin passes first last, x.1.due = true ∧
      first.nanos ≤ x.1.now.nanos ∧ x.1.now.nanos ≤ last.nanos := by
    intro x hx
    obtain ⟨hmem, hin⟩ := List.mem_filter.mp hx
    simp only [Bool.and_eq_true, decide_eq_true_iff] at hin
    have hx := hleap x hmem
    exact ⟨hin.1.1, (Instant.le_iff_nanos_le hfirst hx).mp hin.1.2,
      (Instant.le_iff_nanos_le hx hlast).mp hin.2⟩
  have hwithin :
      (dueWithin passes first last).Pairwise fun p q => PassStart.Apart interval p.1 q.1 :=
    (List.pairwise_map.mp hpairwise).filter _
  rw [Duration.lt_def, Instant.nanos_since hlast hfirst] at hlt
  generalize dueWithin passes first last = due at hinside hwithin ⊢
  rcases due with _ | ⟨p, _ | ⟨q, rest⟩⟩
  · exact Nat.zero_le 1
  · exact Nat.le_refl 1
  · obtain ⟨-, hge, -⟩ := hinside p List.mem_cons_self
    obtain ⟨hdue, -, hle⟩ := hinside q (List.mem_cons_of_mem p List.mem_cons_self)
    have hfar := ((List.pairwise_cons.mp hwithin).1 q List.mem_cons_self).2 hdue
    omega

/-- The intervals are kept by passes each of which is apart from the one before it. -/
theorem spread_of_gaps (hleap : ∀ p ∈ passes, p.1.now.isLeap = false)
    (hgap : ∀ before p q after, passes.map (·.1) = before ++ p :: q :: after → q.due = true →
      Duration.ofSeconds interval ≤ q.now.since p.now)
    (hflush : ∀ before p q after, passes.map (·.1) = before ++ p :: q :: after → q.due = false →
      p.now ≤ q.now)
    (honce : ∀ p ∈ passes, p.1.due = true → (p.2.map (·.entry.key)).Nodup) :
    Spread passes interval := by
  have hstarts : ∀ p ∈ passes.map (·.1), p.now.isLeap = false := by
    intro p hp
    obtain ⟨x, hx, rfl⟩ := List.mem_map.mp hp
    exact hleap x hx
  have hpairwise := PassStart.pairwise_apart hstarts hgap hflush
  refine ⟨hgap, ?_, fun first last hfirst hlast hlt => ?_, fun first last hfirst hlast hlt => ?_⟩
  · refine (hpairwise.filter _).imp_of_mem fun {p q} hp hq happart => ?_
    have hp := hstarts p (List.mem_filter.mp hp).1
    have hq := hstarts q (List.mem_filter.mp hq).1
    exact (Instant.le_iff_nanos_le hp hq).mpr happart.1
  · exact length_dueWithin_le_one hleap hpairwise hfirst hlast hlt
  · have hlength := length_dueWithin_le_one hleap hpairwise hfirst hlast hlt
    have hmem : ∀ x ∈ dueWithin passes first last, (x.2.map (·.entry.key)).Nodup := by
      intro x hx
      obtain ⟨hx, hin⟩ := List.mem_filter.mp hx
      simp only [Bool.and_eq_true] at hin
      exact honce x hx hin.1.1
    generalize dueWithin passes first last = due at hlength hmem ⊢
    rcases due with _ | ⟨p, _ | ⟨q, rest⟩⟩
    · exact List.nodup_nil
    · simpa using hmem p List.mem_cons_self
    · simp at hlength

end Spread

section Passes

variable [Payload α] [DurableStore σ]

/-- The passes of a cache in a run, and what each of them asked the store to write. -/
def passesOf (s : System α ε σ) (events : List (Event α ε σ)) (cache : Nat) :
    List (PassStart α × List (StoreWrite α)) :=
  (s.passes events).filter (·.1.cache = cache)

theorem map_fst_passesOf (s : System α ε σ) (events : List (Event α ε σ)) (cache : Nat) :
    (s.passesOf events cache).map (·.1) =
      PassStart.ofCache (s.starts events) cache := by
  rw [← map_fst_passes, PassStart.ofCache, List.filter_map]
  rfl

/-- Whether lookups of a cache that come to their ends start the passes that are due, and no
    others. -/
structure Prompt (s : System α ε σ) (events : List (Event α ε σ)) (cache : Nat)
    (interval : UInt64) (startedAt : Instant) : Prop where
  /-- A lookup that has answered, whatever it answered, came to its end at some event. -/
  closed : ∀ id q now answer, .asked id cache q now ∈ s.history events →
    (s.run events).task? id = some (.answered answer) → s.Closed events id cache now answer
  /-- At this event it starts a pass exactly when an interval has gone by since the last one. -/
  starts : ∀ before clock outcome id after key now answer,
    events = before ++ .step clock outcome id :: after →
    (s.run before).task? id = some (.lookup cache key now (.closing answer)) →
    (((s.run before).start? (.step clock outcome id)).isSome ↔
      Duration.ofSeconds interval ≤
        now.since (PassStart.lastAt (PassStart.ofCache (s.starts before) cache) startedAt)) ∧
    ∀ p, (s.run before).start? (.step clock outcome id) = some p →
      p.id = id ∧ p.cache = cache ∧ p.now = now ∧ p.due = true

/-- Whatever lookups and flushes go on side by side, a lookup of a cache that comes to its end
    starts a pass exactly when at least one flush interval has gone by since the last pass. So
    unless a flush is called as of a time before the last pass, due passes are at least an
    interval after the pass before them, in a window of time that is shorter there is at most one
    of them, and no key is put more than once by those in the window. -/
theorem due_passes_prompt_spread (store : σ) (specs : List (String × CacheSettings × Instant))
    (events : List (Event α ε σ)) {cache : Nat} {space : String} {settings : CacheSettings}
    {startedAt : Instant} (hspec : specs[cache]? = some (space, settings, startedAt)) :
    (ofSpecs store specs).Prompt events cache settings.flushIntervalSecs startedAt ∧
      ((∀ p ∈ (ofSpecs store specs).starts events, p.cache = cache → p.now.isLeap = false) →
        (∀ before p q after,
          PassStart.ofCache ((ofSpecs store specs).starts events) cache =
            before ++ p :: q :: after → q.due = false → p.now ≤ q.now) →
        Spread ((ofSpecs store specs).passesOf events cache) settings.flushIntervalSecs) := by
  refine ⟨⟨fun id q now answer hasked hanswered => ?_, ?_⟩, fun hleap hflush => ?_⟩
  · obtain ⟨t, ht, hclosing⟩ := closing_run hasked
    rw [hanswered] at ht
    cases ht
    cases hclosing with
    | answered h => exact h
  · intro before clock outcome id after key now answer _ ht
    obtain ⟨c, hc, -⟩ := Option.map_eq_some_iff.mp (paced_run store hspec before)
    rw [start?_of_closing ht hc, ← isDue_iff_of_run hspec hc now]
    refine ⟨by split <;> simp_all, fun p hp => ?_⟩
    split at hp
    · cases hp
      exact ⟨rfl, rfl, rfl, rfl⟩
    · cases hp
  · have hstarts := map_fst_passesOf (ofSpecs store specs) events cache
    have hmem : ∀ p ∈ (ofSpecs store specs).passesOf events cache,
        p ∈ (ofSpecs store specs).passes events ∧ p.1.cache = cache := by
      intro p hp
      simpa using List.mem_filter.mp hp
    refine spread_of_gaps (fun p hp => ?_) (fun before p q after hsplit hdue => ?_)
      (fun before p q after hsplit => hflush before p q after (hstarts ▸ hsplit))
      fun p hp hdue => ?_
    · refine hleap p.1 ?_ (hmem p hp).2
      rw [← map_fst_passes]
      exact List.mem_map_of_mem (hmem p hp).1
    · rw [hstarts, List.append_cons] at hsplit
      have hgap := due_run hspec hsplit hdue
      rw [PassStart.lastAt_concat] at hgap
      exact hgap
    · exact nodup_keys_of_mem_passes (numbered_ofSpecs store specs) (keyed_ofSpecs store specs)
        (hmem p hp).1 hdue

end Passes

/-- One lookup waits for the provider while another one, as of a later time, starts a pass; it ends
    after that, with an error, and a flush follows. -/
def latecomer : List (Event String Unit MemoryStore) :=
  .lookup 0 (.ofSymbols ["a"]) ⟨10, 0⟩ ::
    [none, none, none, some (.ok "x"), none, none, none].map (.step ⟨10, 0⟩ · 0) ++
  .lookup 0 (.ofSymbols ["b"]) ⟨12, 0⟩ :: List.replicate 3 (.step ⟨12, 0⟩ none 1) ++
  .lookup 0 (.ofSymbols ["c"]) ⟨25, 0⟩ ::
    [none, none, none, some (.ok "z"), none, none, none].map (.step ⟨25, 0⟩ · 2) ++
  [some (.error ()), none].map (.step ⟨26, 0⟩ · 1) ++
  .flush 0 ⟨30, 0⟩ :: List.replicate 4 (.step ⟨30, 0⟩ none 3)

theorem due_passes_prompt_spread_latecomer :
    (ofSpecs .empty [("n", ⟨60, 10, 86400, false⟩, ⟨0, 0⟩)]).Prompt latecomer 0 10 ⟨0, 0⟩ ∧
      Spread ((ofSpecs .empty [("n", ⟨60, 10, 86400, false⟩, ⟨0, 0⟩)]).passesOf latecomer 0)
        10 := by
  have hstarts : (ofSpecs .empty [("n", ⟨60, 10, 86400, false⟩, ⟨0, 0⟩)]).starts latecomer =
      [⟨0, 0, ⟨10, 0⟩, true, [⟨⟨"n:A", "x", ⟨10, 0⟩⟩, ⟨10, 0⟩⟩]⟩,
        ⟨2, 0, ⟨25, 0⟩, true, [⟨⟨"n:C", "z", ⟨25, 0⟩⟩, ⟨25, 0⟩⟩]⟩,
        ⟨3, 0, ⟨30, 0⟩, false, []⟩] := by
    decide +kernel
  have hspec : [("n", (⟨60, 10, 86400, false⟩ : CacheSettings), (⟨0, 0⟩ : Instant))][0]? =
      some ("n", ⟨60, 10, 86400, false⟩, ⟨0, 0⟩) := rfl
  have hdue := due_passes_prompt_spread .empty _ latecomer hspec
  rw [hstarts] at hdue
  have hlater : (PassStart.ofCache [⟨0, 0, ⟨10, 0⟩, true, [⟨⟨"n:A", "x", ⟨10, 0⟩⟩, ⟨10, 0⟩⟩]⟩,
        ⟨2, 0, ⟨25, 0⟩, true, [⟨⟨"n:C", "z", ⟨25, 0⟩⟩, ⟨25, 0⟩⟩]⟩,
        ⟨3, 0, ⟨30, 0⟩, false, []⟩] 0).IsChain fun p q => q.due = false → p.now ≤ q.now := by
    decide
  refine ⟨hdue.1, hdue.2 (by decide) fun before p q after hsplit => ?_⟩
  exact List.isChain_iff_forall_rel_of_append_cons_cons.mp hlater hsplit

end System

end MarketCache
