import MarketCache.Proofs.System.FinalFlush

/-!
# A task given up before the flush at the end

A task that is given up takes down with it what it has in hand, and the passes that it has taken
over and still waits for. What they had taken and not yet attempted is in no cache any more, so
a flush that is called afterwards does not come across it. Everything else is superseded or
attempted when that flush has returned.

Main definitions:
* `Renewed`: a later write of a key was recorded.
* `System.Shutdown`: a task given up in a run, with a flush at its end.

Results:
* `not_mem_history_of_over`: a task that is over does nothing any more.
* `aborted_iff_of_run`: which tasks have been given up.
* `Shutdown.lost_iff`: which writes are lost.
-/

namespace MarketCache

variable {α ε σ : Type}

/-! ## Trails past a task that does nothing -/

/-- Whether an entry of the same key was recorded in a cache. -/
def Renewed (cache : Nat) (e : Entry α) (more : List (Happening α ε)) : Prop :=
  ∃ id e', .fetched id cache e' ∈ more ∧ e'.key = e.key

theorem renewed_cons_iff {cache : Nat} {e : Entry α} {x : Happening α ε}
    {more : List (Happening α ε)} : Renewed cache e (x :: more) ↔
      (∃ id e', x = .fetched id cache e' ∧ e'.key = e.key) ∨ Renewed cache e more := by
  unfold Renewed
  constructor
  · rintro ⟨id, e', hmem, hkey⟩
    rcases List.mem_cons.mp hmem with heq | hmem
    · exact Or.inl ⟨id, e', heq.symm, hkey⟩
    · exact Or.inr ⟨id, e', hmem, hkey⟩
  · rintro (⟨id, e', rfl, hkey⟩ | ⟨id, e', hmem, hkey⟩)
    · exact ⟨id, e', List.mem_cons_self, hkey⟩
    · exact ⟨id, e', List.mem_cons_of_mem x hmem, hkey⟩

namespace Trail

variable [DecidableEq α] {cache k : Nat} {e : Entry α} {tr : Trail} {x : Happening α ε}
  {more : List (Happening α ε)}

/-- Only a later write of its key moves what is with a task that does nothing. -/
theorem next_held (cache : Nat) (e : Entry α) (hk : x.id ≠ k) :
    next cache e (.held k) x = .held k ∧ (¬ ∃ id e', x = .fetched id cache e' ∧ e'.key = e.key) ∨
      next cache e (.held k) x = .superseded ∧
        ∃ id e', x = .fetched id cache e' ∧ e'.key = e.key := by
  cases x with
  | fetched id cache' e' =>
    by_cases hover : cache' = cache ∧ e'.key = e.key
    · obtain ⟨rfl, hkey⟩ := hover
      exact Or.inr ⟨if_pos ⟨rfl, hkey⟩, id, e', rfl, hkey⟩
    · refine Or.inl ⟨if_neg hover, ?_⟩
      rintro ⟨id', e₁, heq, hkey⟩
      cases heq
      exact hover ⟨rfl, hkey⟩
  | handed id pass => exact Or.inl ⟨if_neg hk, by simp⟩
  | attempted id w => exact Or.inl ⟨if_neg fun h => hk h.1, by simp⟩
  | _ => exact Or.inl ⟨rfl, by simp⟩

theorem after_held (cache : Nat) (e : Entry α) (hk : ∀ x ∈ more, x.id ≠ k) :
    after cache e (.held k) more = .held k ∧ ¬ Renewed cache e more ∨
      after cache e (.held k) more = .superseded ∧ Renewed cache e more := by
  induction more with
  | nil => exact Or.inl ⟨rfl, fun ⟨_, _, hmem, _⟩ => absurd hmem List.not_mem_nil⟩
  | cons x more ih =>
    rw [after_cons, renewed_cons_iff]
    rcases next_held cache e (hk x List.mem_cons_self) with
      ⟨hnext, hno⟩ | ⟨hnext, hyes⟩
    · rw [hnext]
      rcases ih fun y hy => hk y (List.mem_cons_of_mem x hy) with ⟨h, hr⟩ | ⟨h, hr⟩
      · exact Or.inl ⟨h, fun h => h.elim hno hr⟩
      · exact Or.inr ⟨h, Or.inr hr⟩
    · rw [hnext]
      exact Or.inr ⟨after_of_settled (Or.inl rfl) more, Or.inl hyes⟩

/-- What is with a task that does nothing, and to which nothing is handed, was with it before. -/
theorem eq_held_of_after (hk : ∀ x ∈ more, x.id ≠ k) (hhanded : ∀ id, .handed id k ∉ more)
    (h : after cache e tr more = .held k) : tr = .held k := by
  induction more generalizing tr with
  | nil => exact h
  | cons x more ih =>
    have hnext : next cache e tr x = .held k :=
      ih (fun y hy => hk y (List.mem_cons_of_mem x hy))
        (fun id hmem => hhanded id (List.mem_cons_of_mem x hmem)) h
    cases tr with
    | waiting =>
      cases x with
      | fetched id cache' e' =>
        rw [next] at hnext
        split at hnext <;> cases hnext
      | took id cache' =>
        rw [next] at hnext
        split at hnext
        · cases hnext
          exact absurd rfl (hk _ List.mem_cons_self)
        · cases hnext
      | _ => cases hnext
    | held k' =>
      cases x with
      | fetched id cache' e' =>
        rw [next] at hnext
        split at hnext
        · cases hnext
        · exact hnext
      | handed id pass =>
        rw [next] at hnext
        split at hnext
        · cases hnext
          exact absurd List.mem_cons_self (hhanded id)
        · exact hnext
      | attempted id w =>
        rw [next] at hnext
        split at hnext
        · cases hnext
        · exact hnext
      | _ => exact hnext
    | superseded =>
      rw [next_of_settled (Or.inl rfl)] at hnext
      exact hnext
    | attempted =>
      rw [next_of_settled (Or.inr rfl)] at hnext
      exact hnext

end Trail

namespace System

section Over

variable [Payload α] [DurableStore σ] {s s' : System α ε σ} {clock : Instant} {id k : Nat}
  {t : Task α ε} {more : List (Happening α ε)} {events : List (Event α ε σ)}

/-- A task that is over takes no step. -/
theorem Turn.eq_of_isOver (h : Turn s clock id t more s') (hover : t.isOver = true) :
    more = [] ∧ s' = s := by
  cases t with
  | lookup cache key now stage => cases hover
  | flush cache now stage => cases hover
  | pass cache p => cases hover
  | maintenance cache secs stage => cases hover
  | _ => exact h.eq_of_not_isOperation rfl rfl

/-- A task that is over does nothing any more. -/
theorem not_mem_history_of_over {log : List (Happening α ε)} (hnumbered : s.Numbered log)
    (hover : s.Over k) : ∀ x ∈ s.history events, x.id ≠ k := by
  induction events generalizing s log with
  | nil => simp [history]
  | cons ev events ih =>
    intro x hx
    have hmove := apply_move s ev
    rcases List.mem_append.mp hx with hnew | hrest
    · obtain ⟨t, ht, ho⟩ := hover
      have hlt := hnumbered.tasks k t ht
      generalize s.news ev = more at hmove hnew
      generalize s.apply ev = s' at hmove
      cases hmove with
      | lookup hc =>
        rw [List.mem_singleton.mp hnew]
        exact Nat.ne_of_gt hlt
      | step ht' hturn =>
        rw [hturn.id_of_mem x hnew]
        rintro rfl
        cases ht.symm.trans ht'
        rw [(hturn.eq_of_isOver ho).1] at hnew
        exact absurd hnew List.not_mem_nil
      | _ => simp at hnew
    · exact ih (hnumbered.apply ev) ((hmove.leads hnumbered.tasks).over hover) x hrest

/-- A batch is handed to a new pass only. -/
theorem handed_not_mem_history {log : List (Happening α ε)} (hnumbered : s.Numbered log)
    (ht : s.task? k = some t) : .handed id k ∉ s.history events := by
  induction events generalizing s log t with
  | nil => simp [history]
  | cons ev events ih =>
    intro hx
    have hmove := apply_move s ev
    rcases List.mem_append.mp hx with hnew | hrest
    · have hlt := hnumbered.tasks k t ht
      generalize s.news ev = more at hmove hnew
      generalize s.apply ev = s' at hmove
      cases hmove with
      | step ht' hturn =>
        cases hturn with
        | detach cache batch hc =>
          simp only [List.mem_cons, Happening.handed.injEq, reduceCtorEq, List.not_mem_nil,
            or_false] at hnew
          exact absurd hnew.2 (Nat.ne_of_lt hlt)
        | wrote hp hcache hc => split at hnew <;> simp at hnew
        | _ => simp at hnew
      | _ => simp at hnew
    · obtain ⟨t', ht', -⟩ := hmove.leads hnumbered.tasks k t ht
      exact ih (hnumbered.apply ev) ht' hrest

/-- Unless it goes down with the store, a task that takes a step is not given up. -/
theorem Turn.ne_aborted (h : Turn s clock id t more s') (ht : s.task? id = some t)
    (hbroke : .broke id ∉ more) (hne : t ≠ .aborted) : s'.task? id ≠ some .aborted := by
  have hset : ∀ {s₁ : System α ε σ} {t' : Task α ε}, t' ≠ .aborted →
      (s₁.setTask id t').task? id ≠ some .aborted := by
    intro s₁ t' hne' heq
    rw [task?_setTask, if_pos rfl] at heq
    exact hne' (Option.some.inj heq)
  cases h with
  | idle =>
    intro heq
    exact hne (Option.some.inj (ht.symm.trans heq))
  | write store hp hcache hc hw ha =>
    rcases writer_cases hp with ⟨_, _, _, _, rfl⟩ | ⟨_, _, rfl⟩ | ⟨_, rfl⟩ | ⟨_, _, _, rfl⟩ <;>
      exact hset (fun h => by cases h)
  | broke store hp hcache hc hw => exact absurd (List.mem_singleton_self _) hbroke
  | wrote hp hcache hc =>
    rcases writer_cases hp with ⟨_, _, _, _, rfl⟩ | ⟨_, _, rfl⟩ | ⟨_, rfl⟩ | ⟨_, _, _, rfl⟩ <;>
      exact hset (fun h => by cases h)
  | takeOver hf hcache hslot =>
    rcases flusher_cases hf with ⟨_, rfl⟩ | ⟨_, _, rfl⟩ <;> exact hset (fun h => by cases h)
  | wait hf =>
    rcases flusher_cases hf with ⟨_, rfl⟩ | ⟨_, _, rfl⟩ <;> exact hset (fun h => by cases h)
  | join hf hover =>
    rcases flusher_cases hf with ⟨_, rfl⟩ | ⟨_, _, rfl⟩ <;> exact hset (fun h => by cases h)
  | take hf hcache hc =>
    rcases flusher_cases hf with ⟨_, rfl⟩ | ⟨_, _, rfl⟩ <;> exact hset (fun h => by cases h)
  | _ => exact hset (fun h => by cases h)

theorem apply_aborted_iff (hnext : ∀ id t, s.task? id = some t → id < s.next) {ev : Event α ε σ}
    (habort : ∀ id, ev ≠ .abort id) (hbroke : ∀ id, .broke id ∉ s.news ev) :
    (s.apply ev).task? k = some .aborted ↔ s.task? k = some .aborted := by
  have hmove := apply_move s ev
  refine ⟨fun h => ?_, fun h => ?_⟩
  · have hadd : ∀ {t : Task α ε}, t ≠ .aborted → (s.add t).2.task? k = some .aborted →
        s.task? k = some .aborted := by
      intro t hne h
      have hset : (s.setTask s.next t).task? k = some .aborted := h
      rw [task?_setTask] at hset
      split at hset
      · exact absurd (Option.some.inj hset) hne
      · exact hset
    generalize s.news ev = more at hmove hbroke
    generalize s.apply ev = s' at hmove h
    cases hmove with
    | @step clock outcome id t _ _ ht hturn =>
      rcases hturn.task?_cases h with rfl | hold | ⟨_, _, heq⟩
      · by_cases hne : t = .aborted
        · rw [ht, hne]
        · exact absurd h (hturn.ne_aborted ht (hbroke k) hne)
      · exact hold
      · cases heq
    | abort => exact absurd rfl (habort _)
    | lookup hc => exact hadd (fun h => by cases h) h
    | flush => exact hadd (fun h => by cases h) h
    | maintain => exact hadd (fun h => by cases h) h
    | _ => exact h
  · obtain ⟨t', ht', hb⟩ := hmove.leads hnext k _ h
    rw [hb.eq_of_isOver rfl] at ht'
    exact ht'

/-- As long as nothing is given up and the store does not break down, the tasks that have been given
    up are the same. -/
theorem aborted_iff_of_run {log : List (Happening α ε)} (hnumbered : s.Numbered log)
    (habort : ∀ id, .abort id ∉ events) (hbroke : ∀ id, .broke id ∉ s.history events) :
    (s.run events).task? k = some .aborted ↔ s.task? k = some .aborted := by
  induction events generalizing s log with
  | nil => exact Iff.rfl
  | cons ev events ih =>
    have hev : ∀ id, ev ≠ .abort id := by
      rintro id rfl
      exact habort id List.mem_cons_self
    have hnews : ∀ id, .broke id ∉ s.news ev := fun id hmem =>
      hbroke id (List.mem_append_left _ hmem)
    have hrest := ih (hnumbered.apply ev) (fun id hmem => habort id (List.mem_cons_of_mem ev hmem))
      fun id hmem => hbroke id (List.mem_append_right _ hmem)
    exact hrest.trans (apply_aborted_iff hnumbered.tasks hev hnews)

end Over

/-! ## A task given up and a flush at the end -/

/-- A run of a single new cache in which a task is given up, and a flush is called at the end: the
    events up to each of these, and those after the call. -/
structure Shutdown (α ε σ : Type) where
  store : σ
  space : String
  settings : CacheSettings
  startedAt : Instant
  before : List (Event α ε σ)
  /-- The task that is given up. -/
  task : Nat
  between : List (Event α ε σ)
  now : Instant
  after : List (Event α ε σ)

namespace Shutdown

variable [Payload α] [DurableStore σ] (c : Shutdown α ε σ)

/-- The new cache. -/
def origin : System α ε σ := single c.store c.space c.settings c.startedAt

/-- The system when the task is given up. -/
def start : System α ε σ := c.origin.run c.before

/-- The events up to the call of the flush. -/
def early : List (Event α ε σ) := c.before ++ .abort c.task :: c.between

/-- The number of the flush. -/
def id : Nat := (c.origin.run c.early).next

/-- The system at the end. -/
def state : System α ε σ := c.origin.run (c.early ++ .flush 0 c.now :: c.after)

/-- What happened before the task was given up. -/
def past : List (Happening α ε) := c.origin.history c.before

/-- What happened afterwards. -/
def rest : List (Happening α ε) :=
  (c.start.abort c.task).history (c.between ++ .flush 0 c.now :: c.after)

/-- Whether nothing else runs when the flush is called, it returns, nothing else is given up, and
    the store does not break down. -/
structure Clean : Prop where
  resting : (c.origin.run c.early).isResting = true
  last : ∀ ev ∈ c.after, ev.isCall = false
  once : ∀ id, .abort id ∉ c.before ++ c.between ++ c.after
  sound : ∀ id, .broke id ∉ c.past ++ c.rest
  flushed : ∃ report, c.state.task? c.id = some (.flushed report)

variable {c}

omit [Payload α] [DurableStore σ] in
theorem events_eq : c.early ++ .flush 0 c.now :: c.after =
    c.before ++ .abort c.task :: (c.between ++ .flush 0 c.now :: c.after) := by
  rw [early, List.append_assoc, List.cons_append]

theorem state_eq : c.state =
    (c.start.abort c.task).run (c.between ++ .flush 0 c.now :: c.after) := by
  rw [state, events_eq, run_append]
  rfl

theorem history_eq :
    c.origin.history (c.early ++ .flush 0 c.now :: c.after) = c.past ++ c.rest := by
  rw [events_eq, history_append]
  rfl

/-- The tasks that are over by force at the end are those that were given up. -/
theorem Clean.aborted_iff (h : c.Clean) (k : Nat) :
    c.state.task? k = some .aborted ↔ c.start.Stops c.task k := by
  have hnumbered : (c.start.abort c.task).Numbered (c.past ++ []) :=
    (numbered_run _ _ c.before).apply (.abort c.task)
  have hstart : c.start.task? k ≠ some .aborted := by
    intro hk
    have habort : ∀ id, .abort id ∉ c.before := fun id hmem =>
      h.once id (List.mem_append_left _ (List.mem_append_left _ hmem))
    have hbroke : ∀ id, .broke id ∉ c.origin.history c.before := fun id hmem =>
      h.sound id (List.mem_append_left _ hmem)
    have hnone := (aborted_iff_of_run (numbered_ofSpecs _ _) habort hbroke).mp hk
    rw [task?_ofSpecs] at hnone
    cases hnone
  have habort : ∀ id, .abort id ∉ c.between ++ .flush 0 c.now :: c.after := by
    intro id hmem
    refine h.once id ?_
    simp only [List.mem_append, List.mem_cons, reduceCtorEq, false_or] at hmem ⊢
    exact hmem.elim (fun hmem => Or.inl (Or.inr hmem)) Or.inr
  have hbroke : ∀ id, .broke id ∉ c.rest := fun id hmem =>
    h.sound id (List.mem_append_right _ hmem)
  rw [state_eq, aborted_iff_of_run hnumbered habort hbroke]
  constructor
  · intro hk
    by_cases hstops : c.start.Stops c.task k
    · exact hstops
    · rw [task?_abort_of_not_stops hstops] at hk
      exact absurd hk hstart
  · exact task?_abort_of_stops

/-- What was given up does nothing, and is handed nothing. -/
theorem silent_of_stops {k : Nat} (h : c.start.Stops c.task k) :
    (∀ x ∈ c.rest, x.id ≠ k) ∧ ∀ id, .handed id k ∉ c.rest := by
  have hnumbered : (c.start.abort c.task).Numbered (c.past ++ []) :=
    (numbered_run _ _ c.before).apply (.abort c.task)
  have hk := task?_abort_of_stops h
  exact ⟨not_mem_history_of_over hnumbered ⟨_, hk, rfl⟩,
    fun id => handed_not_mem_history hnumbered hk⟩

/-- What becomes of everything that was recorded before a task was given up. When the flush at the
    end has returned, a write is neither superseded nor attempted if and only if it was with the
    task that was given up, or with a pass that this task waited for, and no later write of its
    key was recorded. So nothing is lost if none of these had anything left to write. -/
theorem lost_iff [DecidableEq α] (h : c.Clean) {earlier later : List (Happening α ε)} {id : Nat}
    {e : Entry α} (hpast : c.past = earlier ++ .fetched id 0 e :: later) :
    (¬ (trail 0 e (later ++ c.rest)).Settled ↔
      (∃ k, trail 0 e later = .held k ∧ c.start.Stops c.task k) ∧ ¬ Renewed 0 e c.rest) ∧
    ((∀ k t, c.start.Stops c.task k → c.start.task? k = some t → t.unwritten = []) →
      (trail 0 e (later ++ c.rest)).Settled) := by
  have hlost : ¬ (trail 0 e (later ++ c.rest)).Settled →
      (∃ k, trail 0 e later = .held k ∧ c.start.Stops c.task k) ∧ ¬ Renewed 0 e c.rest := by
    intro hopen
    obtain ⟨report, hreport⟩ := h.flushed
    have hat : c.state.At 0 e (trail 0 e (later ++ c.rest)) := by
      refine (kept_run c.store _ _).tracked.trails earlier id 0 e _ ?_
      rw [← List.cons_append, ← List.append_assoc, ← hpast]
      exact history_eq
    obtain ⟨hover, hnone⟩ := (final_run h.resting h.last).over hreport
    rcases hfate : trail 0 e (later ++ c.rest) with _ | k | _ | _
    · rw [hfate] at hat
      obtain ⟨cache, w, hc, hw, -⟩ := hat
      cases (hnone e.key).symm.trans ((waiting?_eq hc e.key).trans hw)
    · rw [hfate] at hat
      obtain ⟨t, ht, hw⟩ := hat
      have haborted : t = .aborted := by
        rcases hw with hw | ⟨w, hw, -⟩
        · exact hw
        · rw [Task.unwritten_of_isOver (hover k t ht)] at hw
          exact absurd hw List.not_mem_nil
      have hstops := (h.aborted_iff k).mp (haborted ▸ ht)
      obtain ⟨hsilent, hhanded⟩ := silent_of_stops hstops
      rw [trail_append] at hfate
      have hheld := Trail.eq_held_of_after hsilent hhanded hfate
      refine ⟨⟨k, hheld, hstops⟩, fun hrenewed => ?_⟩
      rw [hheld] at hfate
      rcases Trail.after_held 0 e hsilent with ⟨-, hno⟩ | ⟨hsuperseded, -⟩
      · exact hno hrenewed
      · cases hsuperseded.symm.trans hfate
    · exact absurd (Or.inl hfate) hopen
    · exact absurd (Or.inr hfate) hopen
  refine ⟨⟨hlost, ?_⟩, fun hidle => ?_⟩
  · rintro ⟨⟨k, hheld, hstops⟩, hrenewed⟩ hsettled
    rw [trail_append, hheld] at hsettled
    rcases Trail.after_held 0 e (silent_of_stops hstops).1 with
      ⟨hsame, -⟩ | ⟨-, hyes⟩
    · rw [hsame] at hsettled
      exact Trail.not_settled_held k hsettled
    · exact hrenewed hyes
  · refine Decidable.by_contra fun hopen => ?_
    obtain ⟨⟨k, hheld, hstops⟩, -⟩ := hlost hopen
    have hat : c.start.At 0 e (trail 0 e later) :=
      (kept_run c.store _ _).tracked.trails earlier id 0 e later hpast
    rw [hheld] at hat
    obtain ⟨t, ht, hw⟩ := hat
    rcases hw with rfl | ⟨w, hw, -⟩
    · obtain ⟨-, t', ht', hlive⟩ := hstops
      cases ht.symm.trans ht'
      cases hlive
    · rw [hidle k t hstops ht] at hw
      exact absurd hw List.not_mem_nil

/-- Every lookup of a cache hands its write to a pass in the background. A task that flushes from
    time to time takes the first pass over, and is given up while it waits for it; the second
    pass is still enlisted then. -/
def midjoin : Shutdown String Unit MemoryStore where
  store := .empty
  space := "n"
  settings := ⟨60, 0, 86400, true⟩
  startedAt := ⟨0, 0⟩
  before := lookupRun (.ofSymbols ["a"]) 0 ⟨1, 0⟩ [none, none, none, some (.ok "v"), none, none] ++
    .maintain 0 10 :: List.replicate 2 (.step ⟨11, 0⟩ none 2) ++
    lookupRun (.ofSymbols ["b"]) 3 ⟨12, 0⟩ [none, none, none, some (.ok "w"), none, none]
  task := 2
  between := []
  now := ⟨13, 0⟩
  after := [5, 4, 4, 5, 5, 5].map (.step ⟨13, 0⟩ none ·)

theorem clean_midjoin : midjoin.Clean where
  resting := by decide +kernel
  last := by decide
  once id := by simp [midjoin, lookupRun]
  sound id hmem := by
    have hsound : ∀ x ∈ midjoin.past ++ midjoin.rest, x ≠ .broke x.id := by decide +kernel
    exact hsound _ hmem rfl
  flushed := ⟨⟨0, 0, 0⟩, by decide +kernel⟩

/-- The first write is lost, and the second one is not. -/
theorem lost_iff_midjoin :
    ¬ (trail 0 ⟨"n:A", "v", ⟨1, 0⟩⟩ (midjoin.past.drop 3 ++ midjoin.rest)).Settled ∧
      (trail 0 ⟨"n:B", "w", ⟨12, 0⟩⟩ (midjoin.past.drop 10 ++ midjoin.rest)).Settled := by
  have hfirst : midjoin.past =
      midjoin.past.take 2 ++ .fetched 0 0 ⟨"n:A", "v", ⟨1, 0⟩⟩ :: midjoin.past.drop 3 := by
    decide +kernel
  have hsecond : midjoin.past =
      midjoin.past.take 9 ++ .fetched 3 0 ⟨"n:B", "w", ⟨12, 0⟩⟩ :: midjoin.past.drop 10 := by
    decide +kernel
  have hrest : midjoin.rest = [.tookOver 5 [4],
      .attempted 4 ⟨⟨"n:B", "w", ⟨12, 0⟩⟩, ⟨12, 0⟩⟩, .took 5 0] := by decide +kernel
  have hjoined : (midjoin.start.task? 2).map Task.joined = some [1] := by decide +kernel
  have hlive : (midjoin.start.task? 1).map Task.isOver = some false ∧
      (midjoin.start.task? 2).map Task.isOver = some false := by decide +kernel
  refine ⟨(lost_iff clean_midjoin hfirst).1.mpr ⟨⟨1, by decide +kernel, ?_⟩, ?_⟩,
    Decidable.by_contra fun hopen => ?_⟩
  · obtain ⟨⟨t, ht, hover⟩, t', ht', hover'⟩ :=
      hlive.imp Option.map_eq_some_iff.mp Option.map_eq_some_iff.mp
    rw [ht', Option.map_some, Option.some.injEq] at hjoined
    exact ⟨⟨t', ht', hover', Or.inr (hjoined ▸ List.mem_singleton_self 1)⟩, t, ht, hover⟩
  · rintro ⟨id, e, hmem, -⟩
    rw [hrest] at hmem
    simp at hmem
  · obtain ⟨⟨k, hheld, ⟨t, ht, -, hk⟩, -⟩, -⟩ := (lost_iff clean_midjoin hsecond).1.mp hopen
    have htrail : trail 0 ⟨"n:B", "w", ⟨12, 0⟩⟩ (midjoin.past.drop 10) = .held 4 := by
      decide +kernel
    cases htrail.symm.trans hheld
    rw [show midjoin.task = 2 from rfl] at ht hk
    rw [ht, Option.map_some, Option.some.injEq] at hjoined
    rw [hjoined] at hk
    simp at hk

/-- A lookup of a cache has no pass due. A task that flushes from time to time has taken what the
    lookup recorded, and is given up before it has written it. -/
def midwrite : Shutdown String Unit MemoryStore where
  store := .empty
  space := "n"
  settings := ⟨300, 600, 86400, false⟩
  startedAt := ⟨1700000000, 0⟩
  before := lookupRun (.ofSymbols ["a"]) 0 ⟨1700000000, 0⟩
      [none, none, none, some (.ok "v"), none] ++
    .maintain 0 10 :: List.replicate 4 (.step ⟨1700000010, 0⟩ none 1)
  task := 1
  between := []
  now := ⟨1700000011, 0⟩
  after := List.replicate 4 (.step ⟨1700000011, 0⟩ none 2)

theorem clean_midwrite : midwrite.Clean where
  resting := by decide +kernel
  last := by decide
  once id := by simp [midwrite, lookupRun]
  sound id hmem := by
    have hsound : ∀ x ∈ midwrite.past ++ midwrite.rest, x ≠ .broke x.id := by decide +kernel
    exact hsound _ hmem rfl
  flushed := ⟨⟨0, 0, 0⟩, by decide +kernel⟩

/-- The flush at the end returns with nothing to write, and what the lookup recorded is neither
    superseded nor attempted. -/
theorem not_settled_midwrite : midwrite.Clean ∧
    (midwrite.start.task? 1).map Task.unwritten =
      some [⟨⟨"n:A", "v", ⟨1700000000, 0⟩⟩, ⟨1700000000, 0⟩⟩] ∧
    midwrite.state.task? midwrite.id = some (.flushed ⟨0, 0, 0⟩) ∧
    midwrite.past = midwrite.past.take 2 ++
      .fetched 0 0 ⟨"n:A", "v", ⟨1700000000, 0⟩⟩ :: midwrite.past.drop 3 ∧
    ¬ (trail 0 ⟨"n:A", "v", ⟨1700000000, 0⟩⟩
      (midwrite.past.drop 3 ++ midwrite.rest)).Settled := by
  exact ⟨clean_midwrite, by decide +kernel, by decide +kernel, by decide +kernel,
    by decide +kernel⟩

end Shutdown

end System

end MarketCache
