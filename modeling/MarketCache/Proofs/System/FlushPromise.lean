import MarketCache.Store.Memory
import MarketCache.Proofs.System.Lifecycle
import MarketCache.Proofs.System.Trail

/-!
# What a flush has done when it returns

A flush waits for the passes that it takes over, takes all that waits, and writes it. So when it
returns, everything that was recorded before it was called has been taken by some task, and
what it took itself, and what the passes had, has been attempted. What another task took, and
still has in hand, has not.

Main definitions:
* `System.Course`: how far a flush has come.
* `System.FlushCall`: a flush in a run, with what came before and after it.

Results:
* `Course.move`: every event takes a flush along its course.
* `FlushCall.settled_iff`: which writes are settled when a flush returns.
-/

namespace MarketCache

variable {α ε σ : Type}

/-- A task that is over has nothing left to write. -/
theorem Task.unwritten_of_isOver {t : Task α ε} (h : t.isOver = true) : t.unwritten = [] := by
  cases t with
  | lookup cache key now stage => cases h
  | flush cache now stage => cases h
  | pass cache p => cases h
  | maintenance cache secs stage => cases h
  | _ => rfl

/-- A write that waits, or that one of some passes has, when a flush takes the passes over is
    taken by the flush or stays with them, if nobody else takes what waits in between. -/
theorem Trail.within_of_tookOver [DecidableEq α] {cache f : Nat} {e : Entry α} {tr : Trail}
    {passes : List Nat} {middle late : List (Happening α ε)}
    (hstart : ∀ t, tr = .held t → t ∈ passes) (htook : ∀ t, .took t cache ∉ middle)
    (hhanded : ∀ t pass, t = f ∨ t ∈ passes → .handed t pass ∉ middle ++ late) :
    (after cache e tr (.tookOver f passes :: (middle ++ .took f cache :: late))).Within
      fun t => t = f ∨ t ∈ passes := by
  have hmiddle : ∀ t pass, t = f ∨ t ∈ passes → .handed t pass ∉ middle :=
    fun t pass ht hmem => hhanded t pass ht (List.mem_append_left late hmem)
  have hlate : ∀ t pass, t = f ∨ t ∈ passes → .handed t pass ∉ late :=
    fun t pass ht hmem => hhanded t pass ht (List.mem_append_right middle hmem)
  have hsame : tr.next cache e (.tookOver (ε := ε) f passes) = tr := next_of_isQuiet rfl
  have hsplit : after cache e tr (.tookOver f passes :: (middle ++ .took f cache :: late)) =
      after cache e (next cache e (after cache e tr middle) (.took f cache : Happening α ε))
        late := by
    rw [after_cons, hsame, after, List.foldl_append]
    rfl
  have htaken : (next cache e (after cache e tr middle) (.took f cache : Happening α ε)).Within
      fun t => t = f ∨ t ∈ passes := by
    by_cases hwait : tr = .waiting
    · rw [hwait]
      rcases after_waiting htook with h | h
      · rw [h, next, if_pos rfl]
        exact Or.inl ⟨f, Or.inl rfl, rfl⟩
      · rw [h]
        exact Or.inr (Or.inl rfl)
    · have hstart : tr.Within fun t => t = f ∨ t ∈ passes := by
        cases tr with
        | waiting => exact absurd rfl hwait
        | held t => exact Or.inl ⟨t, Or.inr (hstart t rfl), rfl⟩
        | superseded => exact Or.inr (Or.inl rfl)
        | attempted => exact Or.inr (Or.inr rfl)
      have hwithin : (after cache e tr middle).Within fun t => t = f ∨ t ∈ passes :=
        hstart.after hmiddle
      rcases hwithin with ⟨t, ht, h⟩ | h
      · rw [h]
        exact Or.inl ⟨t, ht, rfl⟩
      · rw [next_of_settled h]
        exact Or.inr h
  rw [hsplit]
  exact htaken.after hlate

namespace System

/-- Whether a task is there and over. -/
def Over (s : System α ε σ) (id : Nat) : Prop := ∃ t, s.task? id = some t ∧ t.isOver = true

/-- How far a flush has come, told from its task, and what has happened since it was called. -/
inductive Course (f cache : Nat) (s : System α ε σ) (rest : List (Happening α ε)) :
    Task α ε → Prop where
  | starting {now} : Course f cache s rest (.flush cache now .starting)
  | joining {now} (early : List (Happening α ε)) (passes : List Nat)
      (middle : List (Happening α ε)) (h : rest = early ++ .tookOver f passes :: middle) :
      Course f cache s rest (.flush cache now (.joining passes))
  | taking {now} (early : List (Happening α ε)) (passes : List Nat)
      (middle : List (Happening α ε)) (h : rest = early ++ .tookOver f passes :: middle)
      (hover : ∀ p ∈ passes, s.Over p) : Course f cache s rest (.flush cache now .taking)
  | writing {now p} (early : List (Happening α ε)) (passes : List Nat)
      (middle late : List (Happening α ε))
      (h : rest = early ++ .tookOver f passes :: (middle ++ .took f cache :: late))
      (hover : ∀ p ∈ passes, s.Over p) : Course f cache s rest (.flush cache now (.writing p))
  | flushed {report} (early : List (Happening α ε)) (passes : List Nat)
      (middle late : List (Happening α ε))
      (h : rest = early ++ .tookOver f passes :: (middle ++ .took f cache :: late))
      (hover : ∀ p ∈ passes, s.Over p) : Course f cache s rest (.flushed report)
  | aborted : Course f cache s rest .aborted

section Course

variable {s s' : System α ε σ} {f cache : Nat} {t : Task α ε}
  {rest more : List (Happening α ε)}

theorem Leads.over (h : s.Leads s') {id : Nat} (hover : s.Over id) : s'.Over id := by
  obtain ⟨t, ht, hover⟩ := hover
  obtain ⟨t', ht', hb⟩ := h id t ht
  rw [hb.eq_of_isOver hover] at ht'
  exact ⟨t, ht', hover⟩

/-- What others do leaves a flush where it is. -/
theorem Course.mono (h : Course f cache s rest t) (hleads : s.Leads s')
    (more : List (Happening α ε)) : Course f cache s' (rest ++ more) t := by
  cases h with
  | starting => exact .starting
  | joining early passes middle h =>
    refine .joining early passes (middle ++ more) ?_
    rw [h, List.append_assoc, List.cons_append]
  | taking early passes middle h hover =>
    refine .taking early passes (middle ++ more) ?_ fun p hp => hleads.over (hover p hp)
    rw [h, List.append_assoc, List.cons_append]
  | writing early passes middle late h hover =>
    refine .writing early passes middle (late ++ more) ?_ fun p hp => hleads.over (hover p hp)
    rw [h, List.append_assoc, List.cons_append, List.append_assoc, List.cons_append]
  | flushed early passes middle late h hover =>
    refine .flushed early passes middle (late ++ more) ?_ fun p hp => hleads.over (hover p hp)
    rw [h, List.append_assoc, List.cons_append, List.append_assoc, List.cons_append]
  | aborted => exact .aborted

variable [Payload α] [DurableStore σ] {clock : Instant}

/-- A step of a flush takes it along its course. -/
theorem Course.turn (h : Course f cache s rest t) (hturn : Turn s clock f t more s')
    (hleads : s.Leads s') (hknown : ∀ passes, .tookOver f passes ∈ rest → ∀ p ∈ passes,
      ∃ t, s.task? p = some t) (ht : s.task? f = some t) :
    ∃ t', s'.task? f = some t' ∧ Course f cache s' (rest ++ more) t' := by
  cases hturn with
  | idle => exact ⟨t, ht, h.mono hleads []⟩
  | @write _ cache' c w batch r a store hp hcache hc hw ha =>
    refine ⟨_, task?_setTask_self _ f _, ?_⟩
    have hmono := h.mono hleads [.attempted f w]
    cases h with
    | writing early passes middle late h hover =>
      cases hp
      cases hmono with
      | writing early passes middle late h hover => exact .writing early passes middle late h hover
    | _ => cases hp
  | @broke _ cache' c w batch r store hp hcache hc hw =>
    exact ⟨.aborted, task?_setTask_self _ f _, .aborted⟩
  | @wrote _ cache' c r hp hcache hc =>
    refine ⟨_, task?_setTask_self _ f _, ?_⟩
    have hmono := h.mono hleads []
    cases h with
    | writing early passes middle late h hover =>
      cases hp
      cases hmono with
      | writing early passes middle late h hover => exact .flushed early passes middle late h hover
    | _ => cases hp
  | @takeOver _ now cache' slot hf hcache hslot =>
    refine ⟨_, task?_setTask_self _ f _, ?_⟩
    cases h with
    | starting => exact .joining rest slot.inFlight [] rfl
    | _ => cases hf
  | @wait _ now passes hf =>
    refine ⟨_, task?_setTask_self _ f _, ?_⟩
    have hmono := h.mono hleads []
    cases h with
    | joining early passes middle h =>
      cases hf
      exact hmono
    | _ => cases hf
  | @join _ now passes hf hover =>
    refine ⟨_, task?_setTask_self _ f _, ?_⟩
    cases h with
    | joining early passes' middle h =>
      cases hf
      refine .taking early passes middle ?_ fun p hp => hleads.over ?_
      · rw [List.append_nil]
        exact h
      · have hmem : .tookOver f passes ∈ rest := by
          rw [h]
          exact List.mem_append_right early List.mem_cons_self
        obtain ⟨t, ht⟩ := hknown passes hmem p hp
        have hp := hover p hp
        unfold isOver at hp
        rw [ht] at hp
        exact ⟨t, ht, hp⟩
    | _ => cases hf
  | @take _ now cache' c hf hcache hc =>
    refine ⟨_, task?_setTask_self _ f _, ?_⟩
    cases h with
    | taking early passes middle h hover =>
      cases hf
      cases hcache
      refine .writing early passes middle [] ?_ fun p hp => hleads.over (hover p hp)
      rw [h, List.append_assoc, List.cons_append]
    | _ => cases hf
  | _ => cases h

/-- A step of another task leaves a task as it is. -/
theorem Turn.task?_of_ne {id : Nat} {t : Task α ε} (h : Turn s clock id t more s') (hne : id ≠ f)
    (hlt : f < s.next) : s'.task? f = s.task? f := by
  cases h with
  | idle => rfl
  | @detach key now answer cache batch =>
    have hnew : s.next ≠ f := by omega
    show (setTask (s.setTask s.next (.pass cache (.ofBatch batch))) id _).task? f = _
    rw [task?_setTask, if_neg hne, task?_setTask, if_neg hnew]
  | _ => exact (task?_setTask _ id f _).trans (if_neg hne)

/-- Every event takes a flush along its course. -/
theorem Course.move {ev : Event α ε σ} (h : Course f cache s rest t) (hmove : Move s ev more s')
    (hnext : ∀ id t, s.task? id = some t → id < s.next)
    (hknown : ∀ passes, .tookOver f passes ∈ rest → ∀ p ∈ passes, ∃ t, s.task? p = some t)
    (ht : s.task? f = some t) :
    ∃ t', s'.task? f = some t' ∧ Course f cache s' (rest ++ more) t' := by
  have hleads := hmove.leads hnext
  have hlt := hnext f t ht
  have hadd : ∀ t', (s.add t').2.task? f = some t := fun t' =>
    (task?_add_of_ne s t' (Nat.ne_of_lt hlt)).trans ht
  cases hmove with
  | @step clock outcome id t₀ _ _ ht₀ hturn =>
    by_cases hid : id = f
    · subst hid
      rw [ht] at ht₀
      cases ht₀
      exact h.turn hturn hleads hknown ht
    · exact ⟨t, (hturn.task?_of_ne hid hlt).trans ht, h.mono hleads more⟩
  | @abort id =>
    have habort : (s.abort id).task? f = some t ∨ (s.abort id).task? f = some .aborted := by
      refine abort_induction (P := fun s' => s'.task? f = some t ∨ s'.task? f = some .aborted)
        (Or.inl ht) ?_ id
      intro s' id' t' _ _ h
      rw [task?_setTask]
      split
      · exact Or.inr rfl
      · exact h
    rcases habort with hsame | haborted
    · exact ⟨t, hsame, h.mono hleads []⟩
    · exact ⟨.aborted, haborted, .aborted⟩
  | lookup hc => exact ⟨t, hadd _, h.mono hleads _⟩
  | flush => exact ⟨t, hadd _, h.mono hleads _⟩
  | maintain => exact ⟨t, hadd _, h.mono hleads _⟩
  | _ => exact ⟨t, ht, h.mono hleads []⟩

end Course

/-! ## What holds in every run -/

/-- What every event keeps of numbers, of trails and of tasks. -/
structure Kept [DecidableEq α] (s : System α ε σ) (log : List (Happening α ε)) : Prop where
  numbered : s.Numbered log
  tracked : s.Tracked log
  orderly : s.Orderly log

section Kept

variable [DecidableEq α] [Payload α] [DurableStore σ]

theorem Kept.apply {s : System α ε σ} {log : List (Happening α ε)} (h : s.Kept log)
    (ev : Event α ε σ) : (s.apply ev).Kept (log ++ s.news ev) where
  numbered := h.numbered.apply ev
  tracked := (apply_move s ev).tracked h.tracked h.numbered.tasks
  orderly := (apply_move s ev).orderly h.orderly h.numbered.tasks

theorem kept_run (store : σ) (specs : List (String × CacheSettings × Instant))
    (events : List (Event α ε σ)) :
    ((ofSpecs store specs).run events).Kept ((ofSpecs store specs).history events) := by
  have hstart : (ofSpecs store specs : System α ε σ).Kept [] :=
    ⟨numbered_ofSpecs store specs, tracked_ofSpecs store specs, orderly_ofSpecs store specs⟩
  exact run_induction (P := Kept) hstart fun s log ev _ h => h.apply ev

end Kept

/-! ## A flush in a run -/

/-- A flush in a run of new caches over a store: the events before it was called, those after, and
    what it was called with. -/
structure FlushCall (α ε σ : Type) where
  store : σ
  specs : List (String × CacheSettings × Instant)
  before : List (Event α ε σ)
  cache : Nat
  now : Instant
  after : List (Event α ε σ)

namespace FlushCall

section Call

variable [Payload α] [DurableStore σ] (c : FlushCall α ε σ)

/-- The system when the flush is called. -/
def start : System α ε σ := (ofSpecs c.store c.specs).run c.before

/-- The number of the flush. -/
def id : Nat := c.start.next

/-- The system after all events. -/
def state : System α ε σ :=
  (ofSpecs c.store c.specs).run (c.before ++ .flush c.cache c.now :: c.after)

/-- What happened before the flush was called. -/
def past : List (Happening α ε) := (ofSpecs c.store c.specs).history c.before

/-- What happened after the flush was called. -/
def rest : List (Happening α ε) := (c.start.apply (.flush c.cache c.now)).history c.after

theorem state_eq : c.state = (c.start.apply (.flush c.cache c.now)).run c.after :=
  run_append _ _ _

/-- Where the write of an entry is at the end, given what happened between its record and the
    call. -/
def fate [DecidableEq α] (e : Entry α) (later : List (Happening α ε)) : Trail :=
  trail c.cache e (later ++ c.rest)

/-- Whether a task was aborted, or has the write of an entry in hand and is neither the flush nor
    one of the passes that it waited for. -/
def Misses (passes : List Nat) (e : Entry α) (id : Nat) : Prop :=
  ∃ t, c.state.task? id = some t ∧
    (t = .aborted ∨ (id ≠ c.id ∧ id ∉ passes ∧ ∃ w ∈ t.unwritten, w.entry = e))

/-- What holds at any time after the flush was called. -/
def Underway [DecidableEq α] (s : System α ε σ) (rest : List (Happening α ε)) : Prop :=
  s.Kept (c.past ++ rest) ∧ ∃ t, s.task? c.id = some t ∧ Course c.id c.cache s rest t

variable {c} in
theorem Underway.apply [DecidableEq α] {s : System α ε σ} {rest : List (Happening α ε)}
    (h : c.Underway s rest) (ev : Event α ε σ) : c.Underway (s.apply ev) (rest ++ s.news ev) := by
  obtain ⟨hkept, t, ht, hcourse⟩ := h
  refine ⟨List.append_assoc _ _ _ ▸ hkept.apply ev, ?_⟩
  refine hcourse.move (apply_move s ev) hkept.numbered.tasks ?_ ht
  intro passes hmem p hp
  obtain ⟨t, ht, -⟩ := hkept.orderly.takenOver c.id passes (List.mem_append_right _ hmem) p hp
  exact ⟨t, ht⟩

/-- A flush comes along its course, whatever goes on beside it. -/
theorem underway [DecidableEq α] : c.Underway c.state c.rest := by
  have hstart : c.Underway (c.start.apply (.flush c.cache c.now)) [] := by
    refine ⟨?_, .flush c.cache c.now .starting, ?_, .starting⟩
    · exact (kept_run c.store c.specs c.before).apply (.flush c.cache c.now)
    · exact task?_setTask_self c.start c.id _
  rw [state_eq]
  exact run_induction hstart fun s rest ev _ h => h.apply ev

section Flushed

variable {c : FlushCall α ε σ} {report : FlushReport}

/-- A flush that returned has taken over the passes in the background, and then all that waited;
    the passes are over. -/
theorem exists_of_flushed [DecidableEq α] (h : c.state.task? c.id = some (.flushed report)) :
    ∃ early passes middle late,
      c.rest = early ++ .tookOver c.id passes :: (middle ++ .took c.id c.cache :: late) ∧
      ∀ p ∈ passes, c.state.Over p := by
  obtain ⟨-, t, ht, hcourse⟩ := c.underway
  rw [h] at ht
  cases ht
  cases hcourse with
  | flushed early passes middle late hrest hover =>
    exact ⟨early, passes, middle, late, hrest, hover⟩

/-- A task that is over has the write of an entry in hand only if it was aborted with it. -/
theorem aborted_of_over {cache id : Nat} {e : Entry α} (hat : c.state.At cache e (.held id))
    (hover : c.state.Over id) : c.state.task? id = some .aborted := by
  obtain ⟨t, ht, hover⟩ := hover
  obtain ⟨t', ht', hw⟩ := hat
  rw [ht] at ht'
  cases ht'
  rcases hw with rfl | ⟨w, hw, -⟩
  · exact ht
  · rw [Task.unwritten_of_isOver hover] at hw
    exact absurd hw List.not_mem_nil

/-- The flush misses what some task has in hand, once the flush itself and the passes that it
    waited for are over. -/
theorem misses_of_at {id : Nat} {e : Entry α} {passes : List Nat}
    (hat : c.state.At c.cache e (.held id)) (hflush : c.state.Over c.id)
    (hover : ∀ p ∈ passes, c.state.Over p) : c.Misses passes e id := by
  by_cases hmine : c.state.Over id
  · exact ⟨.aborted, aborted_of_over hat hmine, Or.inl rfl⟩
  · obtain ⟨t, ht, hw⟩ := hat
    rcases hw with rfl | hw
    · exact absurd ⟨.aborted, ht, rfl⟩ hmine
    · refine ⟨t, ht, Or.inr ⟨?_, fun hmem => hmine (hover id hmem), hw⟩⟩
      rintro rfl
      exact hmine hflush

/-- What the flush took, and what the passes that it waited for had, is handed to nobody. -/
theorem not_handed [DecidableEq α] (h : c.state.task? c.id = some (.flushed report))
    {passes : List Nat} (hpasses : .tookOver c.id passes ∈ c.rest) (id pass : Nat)
    (hid : id = c.id ∨ id ∈ passes) : .handed id pass ∉ c.rest := by
  intro hmem
  have horderly := c.underway.1.orderly
  obtain ⟨answer, ht⟩ := horderly.handed id pass (List.mem_append_right c.past hmem)
  rcases hid with rfl | hid
  · rw [h] at ht
    simp at ht
  · obtain ⟨t, ht', hpass⟩ :=
      horderly.takenOver c.id passes (List.mem_append_right c.past hpasses) id hid
    rw [ht'] at ht
    cases ht
    exact hpass

/-- What has become, when a flush returns, of all that was recorded before it was called. It has
    taken over the passes that ran in the background, and then taken all that waited. A write is
    not settled if and only if a task that the flush did not wait for has it in hand, or one was
    aborted with it. So it is settled if it waited, or one of those passes had it, when the flush
    took the passes over, nobody else took what waited before the flush did, and none of the
    passes was aborted. -/
theorem settled_iff [DecidableEq α] (h : c.state.task? c.id = some (.flushed report)) :
    ∃ passes early middle late,
      c.rest = early ++ .tookOver c.id passes :: (middle ++ .took c.id c.cache :: late) ∧
      ∀ earlier id e later, c.past = earlier ++ .fetched id c.cache e :: later →
        (¬ (c.fate e later).Settled ↔ ∃ t, c.fate e later = .held t ∧ c.Misses passes e t) ∧
        ((∀ t, trail c.cache e (later ++ early) = .held t → t ∈ passes) →
          (∀ t, .took t c.cache ∉ middle) → (∀ p ∈ passes, c.state.task? p ≠ some .aborted) →
          (c.fate e later).Settled) := by
  obtain ⟨early, passes, middle, late, hrest, hover⟩ := exists_of_flushed h
  refine ⟨passes, early, middle, late, hrest, fun earlier id e later hpast => ?_⟩
  have hat : c.state.At c.cache e (c.fate e later) := by
    refine c.underway.1.tracked.trails earlier id c.cache e (later ++ c.rest) ?_
    rw [hpast, List.append_assoc, List.cons_append]
  have hflush : c.state.Over c.id := ⟨.flushed report, h, rfl⟩
  have htookOver : .tookOver c.id passes ∈ c.rest := by
    rw [hrest]
    exact List.mem_append_right early List.mem_cons_self
  refine ⟨⟨fun hopen => ?_, ?_⟩, fun hstart htook hlive => ?_⟩
  · rcases hfate : c.fate e later with _ | t | _ | _
    · have htook : .took c.id c.cache ∈ later ++ c.rest := by
        rw [hrest]
        simp
      exact absurd hfate (trail_ne_waiting htook)
    · rw [hfate] at hat
      exact ⟨t, rfl, misses_of_at hat hflush hover⟩
    · exact absurd (Or.inl hfate) hopen
    · exact absurd (Or.inr hfate) hopen
  · rintro ⟨t, hheld, -⟩ hsettled
    rw [hheld] at hsettled
    exact Trail.not_settled_held t hsettled
  · have hwithin : (c.fate e later).Within fun t => t = c.id ∨ t ∈ passes := by
      unfold fate
      rw [hrest, ← List.append_assoc, trail_append]
      refine Trail.within_of_tookOver hstart htook fun t pass ht hmem => ?_
      refine not_handed h htookOver t pass ht ?_
      rw [hrest]
      rcases List.mem_append.mp hmem with hmem | hmem
      · exact List.mem_append_right early (List.mem_cons_of_mem _ (List.mem_append_left _ hmem))
      · exact List.mem_append_right early (List.mem_cons_of_mem _
          (List.mem_append_right middle (List.mem_cons_of_mem _ hmem)))
    rcases hwithin with ⟨t, rfl | ht, hheld⟩ | hsettled
    · rw [hheld] at hat
      have haborted := aborted_of_over hat hflush
      rw [h] at haborted
      simp at haborted
    · rw [hheld] at hat
      exact absurd (aborted_of_over hat (hover t ht)) (hlive t ht)
    · exact hsettled

end Flushed

end Call

/-- A lookup finds its own write due and hands it to a pass in the background, and a flush is
    called before that has written anything. -/
def handover : FlushCall String Unit MemoryStore where
  store := .empty
  specs := [("n", ⟨60, 0, 86400, true⟩, ⟨0, 0⟩)]
  before := .lookup 0 (.ofSymbols ["a"]) ⟨1, 0⟩ ::
    [none, none, none, some (.ok "v"), none, none].map (.step ⟨1, 0⟩ · 0)
  cache := 0
  now := ⟨2, 0⟩
  after := [2, 1, 1, 2, 2, 2].map (.step ⟨2, 0⟩ none ·)

theorem settled_iff_handover :
    handover.state.task? handover.id = some (.flushed ⟨0, 0, 0⟩) ∧
      (handover.fate ⟨"n:A", "v", ⟨1, 0⟩⟩ (handover.past.drop 3)).Settled := by
  have hflushed : handover.state.task? handover.id = some (.flushed ⟨0, 0, 0⟩) := by
    decide +kernel
  have hpast : handover.past =
      handover.past.take 2 ++ .fetched 0 0 ⟨"n:A", "v", ⟨1, 0⟩⟩ :: handover.past.drop 3 := by
    decide +kernel
  have hrest : handover.rest =
      [.tookOver handover.id [1], .attempted 1 ⟨⟨"n:A", "v", ⟨1, 0⟩⟩, ⟨1, 0⟩⟩,
        .took handover.id 0] := by
    decide +kernel
  obtain ⟨passes, early, middle, late, heq, hsettled⟩ := settled_iff hflushed
  rw [hrest] at heq
  obtain ⟨rfl, rfl, rfl, -, rfl⟩ : early = [] ∧ passes = [1] ∧
      middle = [.attempted 1 ⟨⟨"n:A", "v", ⟨1, 0⟩⟩, ⟨1, 0⟩⟩] ∧ handover.cache = 0 ∧ late = [] := by
    simpa [List.cons_eq_append_iff, List.append_eq_cons_iff] using heq
  have htrail : trail 0 ⟨"n:A", "v", ⟨1, 0⟩⟩ (handover.past.drop 3 ++ []) = .held 1 := by
    decide +kernel
  have hended : handover.state.task? 1 = some .ended := by decide +kernel
  refine ⟨hflushed, (hsettled _ _ _ _ hpast).2 (fun t ht => ?_) (by simp) fun p hp => ?_⟩
  · cases htrail.symm.trans ht
    exact List.mem_singleton_self 1
  · rw [List.mem_singleton.mp hp, hended]
    exact fun h => nomatch h

/-- A flush has taken all that waits and not yet written it, when another one is called that finds
    nothing to wait for and nothing to write. -/
def overlap : FlushCall String Unit MemoryStore where
  store := .empty
  specs := [("n", ⟨60, 5, 86400, true⟩, ⟨0, 0⟩)]
  before := .lookup 0 (.ofSymbols ["a"]) ⟨1, 0⟩ ::
    [none, none, none, some (.ok "v"), none].map (.step ⟨1, 0⟩ · 0) ++
    .flush 0 ⟨2, 0⟩ :: List.replicate 3 (.step ⟨2, 0⟩ none 1)
  cache := 0
  now := ⟨2, 0⟩
  after := List.replicate 4 (.step ⟨2, 0⟩ none 2)

/-- The other flush returns, and what was recorded before it was called is neither superseded nor
    attempted, though nothing was aborted and the store did not break down. -/
theorem not_settled_overlap :
    overlap.state.task? overlap.id = some (.flushed ⟨0, 0, 0⟩) ∧
      overlap.past =
        overlap.past.take 2 ++ .fetched 0 0 ⟨"n:A", "v", ⟨1, 0⟩⟩ :: overlap.past.drop 3 ∧
      ¬ (overlap.fate ⟨"n:A", "v", ⟨1, 0⟩⟩ (overlap.past.drop 3)).Settled ∧
      (∀ id, .abort id ∉ overlap.before ++ overlap.after) ∧
      ∀ x ∈ overlap.past ++ overlap.rest, x ≠ .broke x.id := by
  refine ⟨by decide +kernel, by decide +kernel, by decide +kernel, fun id hmem => ?_,
    by decide +kernel⟩
  simp [overlap] at hmem

end FlushCall

end System

end MarketCache
