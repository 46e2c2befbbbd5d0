import Mathlib.Data.List.Induction
import MarketCache.Proofs.Throttle.Independence
import MarketCache.Proofs.Time.Expiry

/-!
# The gate opens when the window is over

The gate remembers of a key only when it opened last. That is enough, even if clocks go back:
it never opens earlier than it did before, so the last time is the latest one, and a window
that is over since then is over since every time before.

Main definitions:
* `ThrottleGuard.run`, `ThrottleGuard.answers`: some calls, and what they come to.
* `ThrottleGuard.openings`: when the gate opened for a key, told from calls and answers.
* `ThrottleGuard.Remembers`: the invariant.

Results:
* `Remembers.act`, `remembers_run`: the gate remembers the latest opening.
* `Remembers.shouldFire_iff`: when it opens.
* `answers_unsuppressed`: what was refused leaves no trace.
* `answers_filter_key`: the answers about a key do not depend on other keys.
* `opens_iff_window_over`: all of it for the calls of a new gate.
-/

namespace MarketCache.ThrottleGuard

/-! ## Calls one after the other -/

/-- The gate after some calls. -/
def run (g : ThrottleGuard) (calls : List Call) : ThrottleGuard :=
  calls.foldl (fun g c => (g.act c).2) g

/-- Some calls and what they come to, the oldest first. -/
def answers (g : ThrottleGuard) : List Call → List (Call × Bool)
  | [] => []
  | c :: calls => (c, (g.act c).1) :: (g.act c).2.answers calls

/-- Whether a call asked in vain whether the gate opens. -/
def isSuppressed : Call × Bool → Bool
  | (.tryFire _ _ _, answer) => !answer
  | _ => false

/-- The times at which the gate opened for a key, after one more call. -/
def noted (key : String) (times : List Instant) : Call × Bool → List Instant
  | (.tryFire k _ now, answer) => if k = key ∧ answer = true then times ++ [now] else times
  | (.markFired k now, _) => if k = key then times ++ [now] else times
  | (.clear k, _) => if k = key then [] else times

/-- The times at which the gate opened for a key since it was last made to forget it, the oldest
    first. -/
def openings (key : String) (log : List (Call × Bool)) : List Instant :=
  log.foldl (noted key) []

/-- Whether a new gate opens for a key after some calls. -/
def opens (before : List Call) (key : String) (windowSecs : UInt64) (now : Instant) : Bool :=
  ((empty.run before).tryFire key windowSecs now).1

section Calls

variable {key : String}

theorem run_concat (g : ThrottleGuard) (calls : List Call) (c : Call) :
    g.run (calls ++ [c]) = ((g.run calls).act c).2 := by
  simp [run]

theorem answers_append (g : ThrottleGuard) (calls more : List Call) :
    g.answers (calls ++ more) = g.answers calls ++ (g.run calls).answers more := by
  induction calls generalizing g with
  | nil => rfl
  | cons c calls ih =>
    rw [List.cons_append, answers, answers, ih, List.cons_append]
    rfl

theorem map_fst_answers (g : ThrottleGuard) (calls : List Call) :
    (g.answers calls).map (·.1) = calls := by
  induction calls generalizing g with
  | nil => rfl
  | cons c calls ih => rw [answers, List.map_cons, ih]

theorem openings_append (key : String) (log more : List (Call × Bool)) :
    openings key (log ++ more) = more.foldl (noted key) (openings key log) := List.foldl_append

/-- Only a clear makes the gate forget when it opened. -/
theorem mem_foldl_noted {t : Instant} {times : List Instant} {log : List (Call × Bool)}
    (ht : t ∈ times) (hclear : .clear key ∉ log.map (·.1)) : t ∈ log.foldl (noted key) times := by
  induction log generalizing times with
  | nil => exact ht
  | cons x log ih =>
    rw [List.map_cons, List.mem_cons, not_or] at hclear
    refine ih ?_ hclear.2
    obtain ⟨c, answer⟩ := x
    cases c with
    | tryFire k windowSecs now =>
      rw [noted]
      split
      · exact List.mem_append_left _ ht
      · exact ht
    | markFired k now =>
      rw [noted]
      split
      · exact List.mem_append_left _ ht
      · exact ht
    | clear k =>
      have hk : k ≠ key := fun heq => hclear.1 (by rw [heq])
      rw [noted, if_neg hk]
      exact ht

end Calls

/-! ## What the gate remembers -/

/-- Whether the gate remembers the last of the times at which it opened for a key, which is the
    latest one. -/
structure Remembers (g : ThrottleGuard) (key : String) (times : List Instant) : Prop where
  record : g.record? key = times.getLast?.map (⟨key, ·⟩)
  latest : ∀ last ∈ times.getLast?, ∀ t ∈ times, t.nanos ≤ last.nanos
  reading : ∀ t ∈ times, t.IsReading

section Remembers

variable {g : ThrottleGuard} {key : String} {times : List Instant} {windowSecs : UInt64}
  {now : Instant} {c : Call} {calls : List Call}

theorem remembers_empty (key : String) : empty.Remembers key [] where
  record := record?_empty key
  latest _ h := nomatch h
  reading _ h := nomatch h

/-- The gate opens iff the window is over since every time at which it opened before. -/
theorem Remembers.shouldFire_iff (h : g.Remembers key times) (hnow : now.IsReading) :
    g.shouldFire key windowSecs now = true ↔
      ∀ t ∈ times, ¬ now.nanos - t.nanos < windowSecs.toNat * 1000000000 := by
  have hrecord := h.record
  unfold shouldFire
  rw [hrecord]
  rcases hlast : times.getLast? with _ | last
  · rw [List.getLast?_eq_none_iff] at hlast
    simp [hlast]
  · have hmem := List.mem_of_getLast? hlast
    have hreading := h.reading last hmem
    show decide (Duration.ofSeconds windowSecs ≤ now.since last) = true ↔ _
    rw [decide_eq_true_iff,
      Instant.ofSeconds_le_since_iff hnow.1 hreading.1 hnow.2 hreading.2]
    constructor
    · intro hover t ht
      have hle := h.latest last hlast t ht
      omega
    · intro hover
      exact Int.not_lt.mp (hover last hmem)

/-- A time at which the gate opens is no earlier than those before. -/
theorem Remembers.opened (h : g.Remembers key times) (hnow : now.IsReading)
    (hfire : g.shouldFire key windowSecs now = true) :
    (g.markFired key now).Remembers key (times ++ [now]) where
  record := by
    rw [record?_markFired, if_pos rfl, List.getLast?_concat]
    rfl
  latest last hlast t ht := by
    rw [List.getLast?_concat] at hlast
    cases hlast
    rcases List.mem_append.mp ht with ht | ht
    · have hover := (h.shouldFire_iff hnow).mp hfire t ht
      omega
    · exact Int.le_of_eq (congrArg Instant.nanos (List.mem_singleton.mp ht))
  reading t ht := by
    rcases List.mem_append.mp ht with ht | ht
    · exact h.reading t ht
    · rw [List.mem_singleton.mp ht]
      exact hnow

/-- A gate with the same record of a key remembers the same. -/
theorem Remembers.congr (h : g.Remembers key times) {g' : ThrottleGuard}
    (hrecord : g'.record? key = g.record? key) : g'.Remembers key times :=
  ⟨hrecord.trans h.record, h.latest, h.reading⟩

/-- What the gate remembers of a key follows each call, but for one that only says that the gate
    has opened. -/
theorem Remembers.act (h : g.Remembers key times) (hmark : ∀ t, c ≠ .markFired key t)
    (hreading : ∀ w t, c = .tryFire key w t → t.IsReading) :
    (g.act c).2.Remembers key (noted key times (c, (g.act c).1)) := by
  cases c with
  | tryFire k w t =>
    by_cases hk : k = key
    · subst hk
      show (g.tryFire k w t).2.Remembers k
        (if k = k ∧ (g.tryFire k w t).1 = true then times ++ [t] else times)
      unfold tryFire
      by_cases hfire : g.shouldFire k w t = true
      · rw [if_pos hfire, if_pos ⟨rfl, rfl⟩]
        exact h.opened (hreading w t rfl) hfire
      · rw [if_neg hfire, if_neg (by simp)]
        exact h
    · show (g.act (.tryFire k w t)).2.Remembers key (if _ then _ else times)
      rw [if_neg (fun heq => hk heq.1)]
      exact h.congr (record?_act_of_ne hk)
  | markFired k t =>
    have hk : k ≠ key := fun heq => hmark t (by rw [heq])
    show (g.act (.markFired k t)).2.Remembers key (if k = key then times ++ [t] else times)
    rw [if_neg hk]
    exact h.congr (record?_act_of_ne hk)
  | clear k =>
    show (g.clear k).Remembers key (if k = key then [] else times)
    by_cases hk : k = key
    · rw [if_pos hk]
      exact (remembers_empty key).congr
        ((record?_clear g k key).trans ((if_pos hk).trans (record?_empty key).symm))
    · rw [if_neg hk]
      exact h.congr (record?_act_of_ne (c := .clear k) hk)

/-- After some calls a new gate remembers when it last opened, which was the latest time. -/
theorem remembers_run (hmark : ∀ t, .markFired key t ∉ calls)
    (hreading : ∀ w t, .tryFire key w t ∈ calls → t.IsReading) :
    (empty.run calls).Remembers key (openings key (empty.answers calls)) := by
  induction calls using List.reverseRecOn with
  | nil => exact remembers_empty key
  | append_singleton calls c ih =>
    have hbefore := ih (fun t hmem => hmark t (List.mem_append_left _ hmem))
      fun w t hmem => hreading w t (List.mem_append_left _ hmem)
    rw [run_concat, answers_append, openings_append]
    refine hbefore.act (fun t heq => hmark t ?_) fun w t heq => hreading w t ?_
    · rw [heq]
      exact List.mem_append_right _ List.mem_cons_self
    · rw [heq]
      exact List.mem_append_right _ List.mem_cons_self

end Remembers

/-! ## What leaves no trace -/

section Traces

variable {g g' : ThrottleGuard} {key : String} {c : Call}

/-- A call that asks in vain leaves the gate as it is. -/
theorem act_of_isSuppressed (h : isSuppressed (c, (g.act c).1) = true) : (g.act c).2 = g := by
  cases c with
  | tryFire k w t =>
    have hrefused : (g.tryFire k w t).1 = false := (Bool.not_eq_true' _).mp h
    show (g.tryFire k w t).2 = g
    rw [tryFire_fst] at hrefused
    rw [tryFire, if_neg (by rw [hrefused]; exact Bool.false_ne_true)]
  | markFired k t => cases h
  | clear k => cases h

/-- Without the calls that asked in vain the others come to the same. -/
theorem answers_unsuppressed (g : ThrottleGuard) (calls : List Call) :
    g.answers (((g.answers calls).filter (!isSuppressed ·)).map (·.1)) =
      (g.answers calls).filter (!isSuppressed ·) := by
  induction calls generalizing g with
  | nil => rfl
  | cons c calls ih =>
    have hrest := ih (g.act c).2
    rw [answers, List.filter_cons]
    by_cases hsuppressed : isSuppressed (c, (g.act c).1) = true
    · rw [act_of_isSuppressed hsuppressed] at hrest ⊢
      rw [if_neg (by simp [hsuppressed])]
      exact hrest
    · rw [if_pos (by simpa using hsuppressed), List.map_cons, answers, hrest]

theorem contains_eq_isSome (g : ThrottleGuard) (key : String) :
    g.contains key = (g.record? key).isSome := by
  simp [contains, record?]

/-- What a call comes to, and what is remembered of its key then, hangs on the record of that
    key. -/
theorem act_congr (h : g'.record? c.key = g.record? c.key) :
    (g'.act c).1 = (g.act c).1 ∧ (g'.act c).2.record? c.key = (g.act c).2.record? c.key := by
  cases c with
  | tryFire k w t =>
    have hfire := (agreeOn_of_record h).shouldFire w t
    show (g'.tryFire k w t).1 = (g.tryFire k w t).1 ∧
      (g'.tryFire k w t).2.record? k = (g.tryFire k w t).2.record? k
    unfold tryFire
    rw [show g'.shouldFire k w t = g.shouldFire k w t from hfire]
    split
    · exact ⟨rfl, by rw [record?_markFired, record?_markFired, if_pos rfl, if_pos rfl]⟩
    · exact ⟨rfl, h⟩
  | markFired k t =>
    refine ⟨rfl, ?_⟩
    show (g'.markFired k t).record? k = (g.markFired k t).record? k
    rw [record?_markFired, record?_markFired, if_pos rfl, if_pos rfl]
  | clear k =>
    refine ⟨?_, ?_⟩
    · show g'.contains k = g.contains k
      rw [contains_eq_isSome, contains_eq_isSome]
      exact congrArg Option.isSome h
    · show (g'.clear k).record? k = (g.clear k).record? k
      rw [record?_clear, record?_clear, if_pos rfl, if_pos rfl]

/-- The calls about a key come to the same without the others. -/
theorem answers_filter_key {calls : List Call} (h : g'.record? key = g.record? key) :
    g'.answers (calls.filter (·.key = key)) = (g.answers calls).filter (·.1.key = key) := by
  induction calls generalizing g g' with
  | nil => rfl
  | cons c calls ih =>
    rw [answers, List.filter_cons, List.filter_cons]
    by_cases hkey : c.key = key
    · subst hkey
      obtain ⟨hanswer, hrecord⟩ := act_congr h
      rw [if_pos (decide_eq_true rfl), if_pos (decide_eq_true rfl), answers, hanswer,
        ih hrecord]
    · rw [if_neg (by simpa using hkey), if_neg (by simpa using hkey)]
      exact ih (h.trans (record?_act_of_ne hkey).symm)

end Traces

/-! ## The calls of a new gate -/

/-- A new gate that is asked about a key, at any times but leap seconds, opens exactly when the
    window is over since every time at which it has opened for the key and not been made to
    forget it. So two such times are a window apart, what was refused changes no other
    answer, and neither do calls about other keys. -/
theorem opens_iff_window_over {calls : List Call} {key : String}
    (hmark : ∀ t, .markFired key t ∉ calls)
    (hreading : ∀ w t, .tryFire key w t ∈ calls → t.IsReading) :
    (∀ before w now after, calls = before ++ .tryFire key w now :: after →
      (opens before key w now = true ↔
        ∀ t ∈ openings key (empty.answers before),
          ¬ now.nanos - t.nanos < w.toNat * 1000000000)) ∧
    (∀ before w t between w' now after,
      calls = before ++ .tryFire key w t :: (between ++ .tryFire key w' now :: after) →
      .clear key ∉ between → opens before key w t = true →
      opens (before ++ .tryFire key w t :: between) key w' now = true →
        w'.toNat * 1000000000 ≤ now.nanos - t.nanos) ∧
    empty.answers (((empty.answers calls).filter (!isSuppressed ·)).map (·.1)) =
      (empty.answers calls).filter (!isSuppressed ·) ∧
    empty.answers (calls.filter (·.key = key)) =
      (empty.answers calls).filter (·.1.key = key) := by
  have hopens : ∀ before w now after, calls = before ++ .tryFire key w now :: after →
      (opens before key w now = true ↔
        ∀ t ∈ openings key (empty.answers before),
          ¬ now.nanos - t.nanos < w.toNat * 1000000000) := by
    intro before w now after hsplit
    have hbefore : ∀ c ∈ before, c ∈ calls := fun c hc => hsplit ▸ List.mem_append_left _ hc
    have hnow : .tryFire key w now ∈ calls := by simp [hsplit]
    rw [opens, tryFire_fst]
    exact (remembers_run (fun t hmem => hmark t (hbefore _ hmem))
      fun w t hmem => hreading w t (hbefore _ hmem)).shouldFire_iff (hreading w now hnow)
  refine ⟨hopens, ?_, answers_unsuppressed empty calls, answers_filter_key rfl⟩
  intro before w t between w' now after hsplit hclear hopened hopened'
  have hover := (hopens _ w' now after (by rw [hsplit]; simp)).mp hopened'
  refine Int.not_lt.mp (hover t ?_)
  -- the gate noted the earlier time, and nothing has made it forget that since
  rw [answers_append, answers, openings_append, List.foldl_cons]
  refine mem_foldl_noted ?_ (by rw [map_fst_answers]; exact hclear)
  show t ∈ if key = key ∧ ((empty.run before).tryFire key w t).1 = true then _ ++ [t] else _
  rw [if_pos ⟨rfl, hopened⟩]
  exact List.mem_append_right _ List.mem_cons_self

/-- Alerts to one recipient: one is sent, one is held back, one is sent when the window is over;
    after the gate was made to forget, one is sent at an earlier time. -/
def alerts : List Call :=
  [.tryFire "alert:bob" 300 ⟨1000, 0⟩, .tryFire "alert:bob" 300 ⟨1299, 999999999⟩,
    .tryFire "alert:ann" 300 ⟨1250, 0⟩, .tryFire "alert:bob" 300 ⟨1300, 0⟩, .clear "alert:bob",
    .tryFire "alert:bob" 300 ⟨1100, 0⟩]

theorem opens_iff_window_over_alerts :
    (∀ t, .markFired "alert:bob" t ∉ alerts) ∧
      (∀ w t, .tryFire "alert:bob" w t ∈ alerts → t.IsReading) ∧
      opens (alerts.take 1) "alert:bob" 300 ⟨1299, 999999999⟩ = false ∧
      opens (alerts.take 3) "alert:bob" 300 ⟨1300, 0⟩ = true ∧
      opens (alerts.take 5) "alert:bob" 300 ⟨1100, 0⟩ = true ∧
      300 * 1000000000 ≤ Instant.nanos ⟨1300, 0⟩ - Instant.nanos ⟨1000, 0⟩ ∧
      empty.answers (alerts.filter (·.key = "alert:bob")) =
        (empty.answers alerts).filter (·.1.key = "alert:bob") := by
  have hmark : ∀ t, .markFired "alert:bob" t ∉ alerts := by simp [alerts]
  have hreading : ∀ w t, .tryFire "alert:bob" w t ∈ alerts → t.IsReading := by
    intro w t hmem
    simp only [alerts, List.mem_cons, Call.tryFire.injEq, List.not_mem_nil, reduceCtorEq] at hmem
    rcases hmem with ⟨-, -, rfl⟩ | ⟨-, -, rfl⟩ | ⟨h, -⟩ | ⟨-, -, rfl⟩ | h | ⟨-, -, rfl⟩ | h
    all_goals first | decide | simp at h
  obtain ⟨hopens, hgap, -, hothers⟩ := opens_iff_window_over hmark hreading
  have hrefused := hopens (alerts.take 1) 300 ⟨1299, 999999999⟩ (alerts.drop 2) rfl
  have hfired := (hopens (alerts.take 3) 300 ⟨1300, 0⟩ (alerts.drop 4) rfl).mpr
    (by decide +kernel)
  have hearlier := (hopens (alerts.take 5) 300 ⟨1100, 0⟩ [] rfl).mpr (by decide +kernel)
  refine ⟨hmark, hreading, ?_, hfired, hearlier, ?_, hothers⟩
  · rw [← Bool.not_eq_true, hrefused]
    decide +kernel
  · exact hgap [] 300 ⟨1000, 0⟩ ((alerts.take 3).drop 1) 300 ⟨1300, 0⟩ (alerts.drop 4) rfl
      (by decide +kernel) (by decide +kernel) hfired

end MarketCache.ThrottleGuard
