import MarketCache.Proofs.System.Promotion
import MarketCache.Proofs.System.WriteOrder

/-!
# Which keys are hot

An entry becomes hot as a lookup promotes or fetches it, and only an invalidation drops it. So
the keys that are hot after a run are told from its lookups and its invalidations alone.

Main definitions:
* `System.Warms`: an event makes an entry of a key hot.
* `System.KeptHot`: a key was made hot in a run and not invalidated since.

Results:
* `hot_apply_iff`: which keys are hot after an event.
* `hot_iff_run`: which keys are hot after a run.
-/

namespace MarketCache

variable {α ε σ : Type}

namespace System

section HotKeys

variable [Payload α] [DurableStore σ]

/-- Whether an event makes an entry hot for a lookup of a key, be it promoted or fetched. -/
def Warms (s : System α ε σ) (ev : Event α ε σ) (key : String) : Prop :=
  ∃ clock outcome id now e, ev = .step clock outcome id ∧
    (Promotes s (s.step clock outcome id) id 0 key now e ∨
      Fetches s (s.step clock outcome id) id 0 key now e)

/-- Whether a key was fetched or promoted in a run, and not invalidated since. -/
def KeptHot (s₀ : System α ε σ) (space : String) (events : List (Event α ε σ)) (key : String) :
    Prop :=
  ∃ before ev after, events = before ++ ev :: after ∧ (s₀.run before).Warms ev key ∧
    ∀ q, .invalidate 0 q ∈ after → q.key space ≠ key

variable {s s₀ : System α ε σ} {ev : Event α ε σ} {events : List (Event α ε σ)} {key space : String}
  {c c' : TieredCache α}

theorem keptHot_concat : s₀.KeptHot space (events ++ [ev]) key ↔
    (s₀.run events).Warms ev key ∨
      s₀.KeptHot space events key ∧ ∀ q, ev = .invalidate 0 q → q.key space ≠ key := by
  constructor
  · rintro ⟨before, ev', after, hsplit, hwarms, hkept⟩
    rcases List.eq_nil_or_concat' after with rfl | ⟨rest, last, rfl⟩
    · obtain ⟨rfl, heq⟩ := List.append_inj' hsplit rfl
      cases heq
      exact Or.inl hwarms
    · rw [← List.cons_append, ← List.append_assoc] at hsplit
      obtain ⟨rfl, heq⟩ := List.append_inj' hsplit rfl
      cases heq
      refine Or.inr ⟨⟨before, ev', rest, rfl, hwarms, fun q hq => ?_⟩, ?_⟩
      · exact hkept q (List.mem_append_left _ hq)
      · rintro q rfl
        exact hkept q (List.mem_append_right _ (List.mem_singleton_self _))
  · rintro (hwarms | ⟨⟨before, ev', after, rfl, hwarms, hkept⟩, hlast⟩)
    · exact ⟨events, ev, [], rfl, hwarms, fun q hq => absurd hq List.not_mem_nil⟩
    · refine ⟨before, ev', after ++ [ev], List.append_assoc _ _ _, hwarms, fun q hq => ?_⟩
      rcases List.mem_append.mp hq with hq | hq
      · exact hkept q hq
      · exact hlast q (List.mem_singleton.mp hq).symm

/-- A lookup that keeps what it has fetched makes an entry of its key hot. -/
theorem Turn.fetches {clock : Instant} {id cache : Nat} {now : Instant} {e : Entry α}
    {more : List (Happening α ε)} {s' : System α ε σ}
    (hturn : Turn s clock id (.lookup cache key now .fetching) more s')
    (ht : s.task? id = some (.lookup cache key now .fetching))
    (ht' : s'.task? id = some (.lookup cache key now (.closing (.ok (.fetched e))))) :
    ∃ c payload, s.cache? cache = some c ∧
      s'.cache? cache = some (c.storeFetched ⟨key, payload, now⟩) := by
  cases hturn with
  | idle => cases ht.symm.trans ht'
  | @fetched _ _ _ c payload hc =>
    refine ⟨c, payload, hc, ?_⟩
    rw [cache?_setTask, cache?_setCache, if_pos rfl, hc]
    rfl
  | refused err =>
    rw [task?_setTask_self] at ht'
    cases ht'
  | write store hp => cases hp
  | broke store hp => cases hp
  | wrote hp => cases hp
  | takeOver hf => cases hf
  | wait hf => cases hf
  | join hf => cases hf
  | take hf => cases hf

/-- Which keys are hot after an event: those that it makes hot, and those that were hot and that it
    does not drop. -/
theorem hot_apply_iff
    (hjudged : ∀ id key now e, s.task? id = some (.lookup 0 key now (.judging (.found e))) →
      e.key = key)
    (hc : s.cache? 0 = some c) (hc' : (s.apply ev).cache? 0 = some c') (key : String) :
    (c'.hot.get? key).isSome ↔
      s.Warms ev key ∨ (c.hot.get? key).isSome ∧ ∀ q, ev = .invalidate 0 q → c.keyFor q ≠ key := by
  have hset : ∀ (hot : HotTier α) (e : Entry α), e.key = key ∨ (hot.get? key).isSome →
      ((hot.set e).get? key).isSome := by
    intro hot e h
    rw [HotTier.get?_set]
    split
    · rfl
    · exact h.resolve_left ‹_›
  obtain ⟨c₁, hc₁, -, hchange⟩ := (apply_move s ev).hotChange hc'
  cases hc.symm.trans hc₁
  constructor
  · intro h
    have hdropped : ∀ q, ev = .invalidate 0 q → c.keyFor q ≠ key := by
      rintro q rfl hkey
      simp only [apply, hc, cache?_setCache_self hc] at hc'
      cases hc'
      rw [TieredCache.invalidate, HotTier.get?_clear, if_pos hkey] at h
      cases h
    generalize c'.hot = hot at hchange h
    cases hchange with
    | keeps => exact Or.inr ⟨h, hdropped⟩
    | @clears q =>
      rw [HotTier.get?_clear, if_neg (hdropped q rfl)] at h
      exact Or.inr ⟨h, hdropped⟩
    | @promotes clock outcome id key' now e hpromotes =>
      rw [HotTier.get?_set] at h
      split at h
      · next heq =>
        obtain rfl := (hjudged id key' now e hpromotes.before).symm.trans heq
        exact Or.inl ⟨clock, outcome, id, now, e, rfl, Or.inl hpromotes⟩
      · exact Or.inr ⟨h, hdropped⟩
    | @fetches clock outcome id key' now e hfetches hkey =>
      rw [HotTier.get?_set] at h
      split at h
      · next heq =>
        obtain rfl := hkey.symm.trans heq
        exact Or.inl ⟨clock, outcome, id, now, e, rfl, Or.inr hfetches⟩
      · exact Or.inr ⟨h, hdropped⟩
  · rintro (⟨clock, outcome, id, now, e, rfl, hpromotes | hfetches⟩ | ⟨h, hkept⟩)
    · obtain ⟨c₁, c₂, -, -, hc₂, hhot⟩ := (step_turn hpromotes.before).promotes
        hpromotes.before hpromotes.after
      cases hc'.symm.trans hc₂
      rw [hhot]
      exact hset c₁.hot e (Or.inl (hjudged id key now e hpromotes.before))
    · obtain ⟨c₁, payload, -, hc₂⟩ := (step_turn hfetches.before).fetches
        hfetches.before hfetches.after
      cases hc'.symm.trans hc₂
      exact hset c₁.hot ⟨key, payload, now⟩ (Or.inl rfl)
    · generalize c'.hot = hot at hchange
      cases hchange with
      | keeps => exact h
      | @clears q =>
        rw [HotTier.get?_clear, if_neg (hkept q rfl)]
        exact h
      | promotes hpromotes => exact hset c.hot _ (Or.inr h)
      | fetches hfetches hkey => exact hset c.hot _ (Or.inr h)

/-- Which keys are hot after a run over a store whose records are about their own keys. -/
theorem hot_iff_run {settings : CacheSettings} {startedAt : Instant} {store : σ}
    (hstart : s₀ = single store space settings startedAt)
    (hreads : ∀ r ∈ s₀.reads events, (r.entry? α).all (·.key = r.key) = true) :
    ∀ c, (s₀.run events).cache? 0 = some c → ∀ key,
      (c.hot.get? key).isSome ↔ s₀.KeptHot space events key := by
  refine prefix_induction (P := fun part => ∀ c, (s₀.run part).cache? 0 = some c → ∀ key,
    (c.hot.get? key).isSome ↔ s₀.KeptHot space part key) (fun c hc key => ?_)
    fun before ev after hsplit ih c' hc' key => ?_
  · subst hstart
    cases hc
    refine ⟨fun h => ?_, fun ⟨before, ev, after, hsplit, _⟩ => ?_⟩
    · have hempty : ((HotTier.empty : HotTier α).get? key).isSome = true := h
      rw [HotTier.get?_empty] at hempty
      cases hempty
    · cases before <;> cases hsplit
  · have hjudged := key_of_judging_run hstart fun r hr => hreads r (by
      rw [hsplit, reads_append]
      exact List.mem_append_left _ hr)
    rw [run_concat] at hc'
    obtain ⟨c, hc, -⟩ := (apply_move (s₀.run before) ev).hotChange hc'
    have hspace : c.space = space := by
      subst hstart
      exact (eq_zero_of_single hc).2.space
    have hkey : ∀ q, c.keyFor q = q.key space := fun q => by rw [TieredCache.keyFor, hspace]
    rw [keptHot_concat, hot_apply_iff (fun id key now e => hjudged id 0 key now e) hc hc' key,
      ih c hc key]
    simp only [hkey]

end HotKeys

end System

end MarketCache
