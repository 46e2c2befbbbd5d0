import MarketCache.Proofs.System.FlushPromise
import MarketCache.Proofs.System.Restart

/-!
# The flush at the end

A flush that is called while no other operation is under way finds every pass that still runs in
the background enlisted: whoever had taken it over before has waited for it, or was given up
together with it. So when the flush has returned, and nothing was called after it, all tasks are
over and nothing waits.

Main definitions:
* `System.Attended`: every pass in the background is enlisted, or somebody waits for it.
* `System.Final`: how far the flush at the end has come.

Results:
* `attended_run`: in every run every pass is attended.
* `final_run`: what holds in the course of the flush at the end.
* `Final.over`: what holds when it has returned.
-/

namespace MarketCache

variable {α ε σ : Type}

namespace System

/-! ## The slots -/

section Slots

variable {s s' : System α ε σ} {cache id : Nat}

theorem map_inFlight_setCache (s : System α ε σ) (cache : Nat) (c : TieredCache α) :
    (s.setCache cache c).slots.map (·.inFlight) = s.slots.map (·.inFlight) := by
  refine List.ext_getElem? fun i => ?_
  unfold setCache
  rw [List.getElem?_map, List.getElem?_map, List.getElem?_modify]
  by_cases h : cache = i
  · simp only [if_pos h]
    cases s.slots[i]? <;> rfl
  · simp only [if_neg h]
    cases s.slots[i]? <;> rfl

theorem enlisted_iff {p : Nat} : s.Enlisted p ↔ ∃ l ∈ s.slots.map (·.inFlight), p ∈ l := by
  unfold Enlisted
  simp

/-- What is enlisted depends on the lists of the slots alone. -/
theorem enlisted_congr (h : s'.slots.map (·.inFlight) = s.slots.map (·.inFlight)) {p : Nat} :
    s'.Enlisted p ↔ s.Enlisted p := by
  rw [enlisted_iff, enlisted_iff, h]

/-- What is enlisted stays so when one more pass is, and so is that pass. -/
theorem enlisted_append {pass k : Nat}
    (h : s.Enlisted k ∨ k = pass ∧ ∃ slot, s.slots[cache]? = some slot) :
    ({ s with slots := s.slots.modify cache fun slot =>
      { slot with inFlight := slot.inFlight ++ [pass] } } : System α ε σ).Enlisted k := by
  have hget : ∀ {i slot}, s.slots[i]? = some slot →
      (s.slots.modify cache fun slot => { slot with inFlight := slot.inFlight ++ [pass] })[i]? =
        some (if cache = i then { slot with inFlight := slot.inFlight ++ [pass] } else slot) := by
    intro i slot hi
    rw [List.getElem?_modify, hi]
    by_cases h : cache = i
    · simp only [if_pos h, Option.map_eq_map, Option.map_some]
    · simp only [if_neg h, Option.map_eq_map, Option.map_some]
  rcases h with ⟨slot, hslot, hk⟩ | ⟨rfl, slot, hslot⟩
  · obtain ⟨i, hi⟩ := List.mem_iff_getElem?.mp hslot
    refine ⟨_, List.mem_of_getElem? (hget hi), ?_⟩
    split
    · exact List.mem_append_left _ hk
    · exact hk
  · refine ⟨_, List.mem_of_getElem? (hget hslot), ?_⟩
    rw [if_pos rfl]
    exact List.mem_append_right _ (List.mem_singleton_self k)

/-- A flush that takes over the passes of a slot leaves those of other slots enlisted. -/
theorem enlisted_setSlot {slot : Slot α} (hslot : s.slots[cache]? = some slot) {k : Nat}
    (h : s.Enlisted k) :
    (s.setSlot cache { slot with inFlight := [] }).Enlisted k ∨ k ∈ slot.inFlight := by
  obtain ⟨slot', hslot', hk⟩ := h
  obtain ⟨i, hi⟩ := List.mem_iff_getElem?.mp hslot'
  by_cases heq : cache = i
  · rw [← heq, hslot] at hi
    cases hi
    exact Or.inr hk
  · refine Or.inl ⟨slot', List.mem_iff_getElem?.mpr ⟨i, ?_⟩, hk⟩
    exact (List.getElem?_set_ne heq).trans hi

variable [Payload α] [DurableStore σ] {clock : Instant} {t : Task α ε}
  {more : List (Happening α ε)}

/-- No cache is ever added or removed. -/
theorem Turn.length_slots (h : Turn s clock id t more s') : s'.slots.length = s.slots.length := by
  cases h with
  | takeOver hf hcache hslot => exact List.length_set
  | detach cache batch hc => exact List.length_modify _ _ _
  | idle => rfl
  | read => rfl
  | refused => rfl
  | rest => rfl
  | write => rfl
  | broke => rfl
  | wake => rfl
  | wait => rfl
  | join => rfl
  | _ => exact List.length_modify _ _ _

theorem length_slots_apply (s : System α ε σ) (ev : Event α ε σ) :
    (s.apply ev).slots.length = s.slots.length := by
  have hmove := apply_move s ev
  generalize s.news ev = more at hmove
  generalize s.apply ev = s' at hmove ⊢
  cases hmove with
  | step ht hturn => exact hturn.length_slots
  | invalidate hc => exact List.length_modify _ _ _
  | @abort id => exact congrArg List.length (abort_frame s id).2.1
  | _ => rfl

theorem length_slots_run (s : System α ε σ) (events : List (Event α ε σ)) :
    (s.run events).slots.length = s.slots.length := by
  induction events generalizing s with
  | nil => rfl
  | cons ev events ih => exact (ih (s.apply ev)).trans (length_slots_apply s ev)

end Slots

/-! ## Tasks that are given up -/

/-- Whether giving a task up ends another one: both are not over, and the other one is the task
    itself or one that it waits for. -/
def Stops (s : System α ε σ) (id k : Nat) : Prop :=
  (∃ t, s.task? id = some t ∧ t.isOver = false ∧ (k = id ∨ k ∈ t.joined)) ∧
    ∃ t, s.task? k = some t ∧ t.isOver = false

section Stops

variable {s : System α ε σ} {id k : Nat}

theorem isOver_eq_false_iff : s.isOver k = false ↔ ∃ t, s.task? k = some t ∧ t.isOver = false := by
  unfold isOver
  rcases s.task? k with _ | t
  · simp
  · simp

theorem task?_foldl_abort (passes : List Nat) (s : System α ε σ) (k : Nat) :
    (passes.foldl (fun s p => if s.isOver p then s else s.setTask p .aborted) s).task? k =
      if k ∈ passes ∧ s.isOver k = false then some .aborted else s.task? k := by
  induction passes generalizing s with
  | nil => simp
  | cons p passes ih =>
    rw [List.foldl_cons, ih]
    by_cases hover : s.isOver p = true
    · rw [if_pos hover]
      by_cases hkp : k = p
      · subst hkp
        simp [hover]
      · simp [hkp]
    · rw [if_neg hover]
      by_cases hkp : k = p
      · subst hkp
        have hlive : s.isOver k = false := Bool.not_eq_true _ ▸ hover
        have hset : (s.setTask k .aborted).isOver k = true := by
          unfold isOver
          rw [task?_setTask, if_pos rfl]
          rfl
        simp [hlive, hset]
      · have hset : (s.setTask p .aborted).task? k = s.task? k :=
          (task?_setTask s p k _).trans (if_neg (Ne.symm hkp))
        have hsame : (s.setTask p .aborted).isOver k = s.isOver k := by
          unfold isOver
          rw [hset]
        rw [hset, hsame]
        simp [hkp]

/-- What giving a task up makes of every task. -/
theorem task?_abort_of_stops (h : s.Stops id k) : (s.abort id).task? k = some .aborted := by
  obtain ⟨⟨t, ht, hlive, hk⟩, hlive'⟩ := h
  unfold abort
  simp only [ht, hlive, Bool.false_eq_true, if_false]
  rw [task?_setTask, task?_foldl_abort]
  rcases hk with rfl | hk
  · rw [if_pos rfl]
  · rw [if_pos (⟨hk, isOver_eq_false_iff.mpr hlive'⟩ : _ ∧ _), ite_self]

theorem task?_abort_of_not_stops (h : ¬ s.Stops id k) : (s.abort id).task? k = s.task? k := by
  unfold abort
  split
  · rfl
  · next t ht =>
    split
    · rfl
    · next hover =>
      have hlive : t.isOver = false := Bool.not_eq_true _ ▸ hover
      have hne : id ≠ k := by
        rintro rfl
        exact h ⟨⟨t, ht, hlive, Or.inl rfl⟩, t, ht, hlive⟩
      rw [task?_setTask, if_neg hne, task?_foldl_abort, if_neg]
      rintro ⟨hk, hk'⟩
      exact h ⟨⟨t, ht, hlive, Or.inr hk⟩, isOver_eq_false_iff.mp hk'⟩

end Stops

/-! ## Passes in the background are attended -/

/-- Whether every pass in the background is enlisted, or waited for by a task, and what tasks wait
    for are passes. -/
structure Attended (s : System α ε σ) : Prop where
  passes : ∀ k cache p, s.task? k = some (.pass cache p) →
    s.Enlisted k ∨ ∃ j t, s.task? j = some t ∧ k ∈ t.joined
  joined : ∀ j t, s.task? j = some t → ∀ k ∈ t.joined, ∃ t', s.task? k = some t' ∧ t'.IsPass

section Attended

variable [Payload α] [DurableStore σ] {s s' : System α ε σ} {clock : Instant} {id : Nat}
  {t : Task α ε} {more log : List (Happening α ε)}

/-- What a step does to passes in the background: a lookup starts one and enlists it, an enlisted
    one stays so or is waited for, and who waits goes on to wait until all are over. -/
theorem Turn.attends (h : Turn s clock id t more s') (ht : s.task? id = some t) :
    (∀ k cache p, s'.task? k = some (.pass cache p) →
      (∃ p', s.task? k = some (.pass cache p')) ∨
        s'.Enlisted k ∧ ∃ cache key now stage, t = .lookup cache key now stage) ∧
    ∃ t', s'.task? id = some t' ∧
      (∀ k, s.Enlisted k → s'.Enlisted k ∨ k ∈ t'.joined) ∧
      (∀ k ∈ t.joined, k ∈ t'.joined ∨ s.isOver k = true) ∧
      ∀ k ∈ t'.joined, k ∈ t.joined ∨ s.Enlisted k := by
  -- most turns leave the slots' lists alone and have to do with tasks that wait for nobody
  have hplain : ∀ {s₁ : System α ε σ} {t' : Task α ε}, (∀ k, s₁.task? k = s.task? k) →
      s₁.slots.map (·.inFlight) = s.slots.map (·.inFlight) → t.joined = [] → t'.joined = [] →
      (∀ cache p, t' = .pass cache p → ∃ p', t = .pass cache p') →
      (∀ k cache p, (s₁.setTask id t').task? k = some (.pass cache p) →
        (∃ p', s.task? k = some (.pass cache p')) ∨ (s₁.setTask id t').Enlisted k ∧
          ∃ cache key now stage, t = .lookup cache key now stage) ∧
      ∃ t'', (s₁.setTask id t').task? id = some t'' ∧
        (∀ k, s.Enlisted k → (s₁.setTask id t').Enlisted k ∨ k ∈ t''.joined) ∧
        (∀ k ∈ t.joined, k ∈ t''.joined ∨ s.isOver k = true) ∧
        ∀ k ∈ t''.joined, k ∈ t.joined ∨ s.Enlisted k := by
    intro s₁ t' htasks hslots hnil hnil' hpass
    refine ⟨fun k cache p hk => Or.inl ?_, t', task?_setTask_self _ id t',
      fun k hk => Or.inl ((enlisted_congr hslots).mpr hk), by simp [hnil], by simp [hnil']⟩
    rw [task?_setTask, htasks] at hk
    split at hk
    · next heq =>
      obtain ⟨p', rfl⟩ := hpass cache p (Option.some.inj hk)
      exact ⟨p', heq ▸ ht⟩
    · exact ⟨p, hk⟩
  have hflusher : ∀ {s₁ : System α ε σ} {now stage stage' k cache p},
      t.flushing? = some (now, stage) → (∀ k, s₁.task? k = s.task? k) →
      (s₁.setTask id (t.withFlush stage')).task? k = some (.pass cache p) →
      ∃ p', s.task? k = some (.pass cache p') := by
    intro s₁ now stage stage' k cache p hf htasks hk
    rw [task?_setTask, htasks] at hk
    split at hk
    · rcases flusher_cases hf with ⟨_, rfl⟩ | ⟨_, _, rfl⟩ <;> cases hk
    · exact ⟨p, hk⟩
  have hcaches := map_inFlight_setCache s
  cases h with
  | idle =>
    exact ⟨fun k cache p hk => Or.inl ⟨p, hk⟩, t, ht, fun k hk => Or.inl hk,
      fun k hk => Or.inl hk, fun k hk => Or.inl hk⟩
  | @detach key now answer cache batch c hc =>
    have hslot : ∃ slot, s.slots[cache]? = some slot := by
      obtain ⟨slot, hslot, -⟩ := Option.map_eq_some_iff.mp hc
      exact ⟨slot, hslot⟩
    refine ⟨fun k cache' p hk => ?_, _, task?_setTask_self _ id _,
      fun k hk => Or.inl (enlisted_append (Or.inl hk)), by simp [Task.joined],
      by simp [Task.joined]⟩
    rw [task?_setTask] at hk
    split at hk
    · cases hk
    · have hset : (s.setTask s.next (.pass cache (.ofBatch batch))).task? k =
          some (.pass cache' p) := hk
      rw [task?_setTask] at hset
      split at hset
      · next heq =>
        exact Or.inr ⟨enlisted_append (Or.inr ⟨heq.symm, hslot⟩), cache, key, now, _, rfl⟩
      · exact Or.inl ⟨p, hset⟩
  | write store hp hcache hc hw ha =>
    refine hplain (fun _ => rfl) rfl (joined_of_pass? hp) (joined_of_pass? (pass?_withPass hp _)) ?_
    rcases writer_cases hp with ⟨_, _, _, _, rfl⟩ | ⟨_, _, rfl⟩ | ⟨_, rfl⟩ | ⟨_, _, _, rfl⟩ <;>
      simp [Task.withPass]
  | broke store hp hcache hc hw =>
    exact hplain (fun _ => rfl) rfl (joined_of_pass? hp) rfl (by simp)
  | wrote hp hcache hc =>
    refine hplain (fun _ => rfl) (hcaches _ _) (joined_of_pass? hp) (joined_afterPass hp _) ?_
    rcases writer_cases hp with ⟨_, _, _, _, rfl⟩ | ⟨_, _, rfl⟩ | ⟨_, rfl⟩ | ⟨_, _, _, rfl⟩ <;>
      simp [Task.afterPass]
  | @takeOver _ now cache slot hf hcache hslot =>
    refine ⟨fun k cache' p hk => Or.inl (hflusher hf (fun _ => rfl) hk), _,
      task?_setTask_self _ id _, fun k hk => ?_, fun k hk => ?_, fun k hk => ?_⟩
    · rw [joined_withFlush hf]
      exact enlisted_setSlot hslot hk
    · rw [joined_of_flushing? hf] at hk
      exact absurd hk List.not_mem_nil
    · rw [joined_withFlush hf] at hk
      exact Or.inr ⟨slot, List.mem_of_getElem? hslot, hk⟩
  | @wait _ now passes hf =>
    have hsame : (t.withFlush (.joining passes)).joined = t.joined :=
      (joined_withFlush hf _).trans (joined_of_flushing? hf).symm
    refine ⟨fun k cache p hk => Or.inl (hflusher hf (fun _ => rfl) hk), _,
      task?_setTask_self _ id _, fun k hk => Or.inl hk, fun k hk => ?_,
      fun k hk => ?_⟩
    · exact Or.inl (hsame ▸ hk)
    · exact Or.inl (hsame ▸ hk)
  | @join _ now passes hf hover =>
    refine ⟨fun k cache p hk => Or.inl (hflusher hf (fun _ => rfl) hk), _,
      task?_setTask_self _ id _, fun k hk => Or.inl hk, fun k hk => ?_,
      fun k hk => ?_⟩
    · rw [joined_of_flushing? hf] at hk
      exact Or.inr (hover k hk)
    · rw [joined_withFlush hf] at hk
      exact absurd hk List.not_mem_nil
  | take hf hcache hc =>
    rcases flusher_cases hf with ⟨_, rfl⟩ | ⟨_, _, rfl⟩ <;>
      exact hplain (fun _ => rfl) (hcaches _ _) rfl rfl (by simp [Task.withFlush])
  | hot hc he hfresh => exact hplain (fun _ => rfl) (hcaches _ _) rfl rfl (by simp)
  | cold hc => exact hplain (fun _ => rfl) (hcaches _ _) rfl rfl (by simp)
  | durable hc hfresh => exact hplain (fun _ => rfl) (hcaches _ _) rfl rfl (by simp)
  | call counters hc => exact hplain (fun _ => rfl) (hcaches _ _) rfl rfl (by simp)
  | fetched payload hc => exact hplain (fun _ => rfl) (hcaches _ _) rfl rfl (by simp)
  | hand hc => exact hplain (fun _ => rfl) (hcaches _ _) rfl rfl (by simp)
  | begin hc => exact hplain (fun _ => rfl) (hcaches _ _) rfl rfl (by simp)
  | _ => exact hplain (fun _ => rfl) rfl rfl rfl (by simp)

theorem Turn.attended (h : Turn s clock id t more s') (ht : s.task? id = some t)
    (hs : s.Attended) (horderly : s.Orderly log)
    (hnext : ∀ id t, s.task? id = some t → id < s.next) : s'.Attended := by
  obtain ⟨hpasses, t', ht', hlists, hwaits, hjoins⟩ := h.attends ht
  have hleads := h.leads ht hnext
  have hother : ∀ j t, j ≠ id → s.task? j = some t → s'.task? j = some t := fun j t hne hj =>
    (h.task?_of_ne (Ne.symm hne) (hnext j t hj)).trans hj
  refine ⟨fun k cache p hk => ?_, fun j t₁ hj k hk => ?_⟩
  · rcases hpasses k cache p hk with ⟨p', hold⟩ | hnew
    · rcases hs.passes k cache p' hold with hlisted | ⟨j, t₁, hj, hjoined⟩
      · exact (hlists k hlisted).imp_right fun hjoined => ⟨id, t', ht', hjoined⟩
      · by_cases hid : j = id
        · subst hid
          cases ht.symm.trans hj
          rcases hwaits k hjoined with hjoined | hover
          · exact Or.inr ⟨j, t', ht', hjoined⟩
          · unfold isOver at hover
            rw [hold] at hover
            cases hover
        · exact Or.inr ⟨j, t₁, hother j t₁ hid hj, hjoined⟩
    · exact Or.inl hnew.1
  · have hpass : ∃ t, s.task? k = some t ∧ t.IsPass := by
      by_cases hid : j = id
      · subst hid
        cases ht'.symm.trans hj
        rcases hjoins k hk with hold | hlisted
        · exact hs.joined j t ht k hold
        · exact horderly.enlisted k hlisted
      · rcases h.task?_cases hj with heq | hold | ⟨_, _, rfl⟩
        · exact absurd heq hid
        · exact hs.joined j t₁ hold k hk
        · exact absurd hk List.not_mem_nil
    obtain ⟨t₂, ht₂, hpass⟩ := hpass
    obtain ⟨t₃, ht₃, hb⟩ := hleads k t₂ ht₂
    exact ⟨t₃, ht₃, hb.isPass hpass⟩

omit [Payload α] [DurableStore σ] in
theorem Attended.abort (hs : s.Attended) (id : Nat) : (s.abort id).Attended := by
  have hslots : (s.abort id).slots = s.slots := (abort_frame s id).2.1
  refine ⟨fun k cache p hk => ?_, fun j t hj k hk => ?_⟩
  · have hstops : ¬ s.Stops id k := fun h => by
      cases (task?_abort_of_stops h).symm.trans hk
    rw [task?_abort_of_not_stops hstops] at hk
    rcases hs.passes k cache p hk with hlisted | ⟨j, t, hj, hjoined⟩
    · exact Or.inl ((enlisted_congr (congrArg _ hslots)).mpr hlisted)
    · refine Or.inr ⟨j, t, (task?_abort_of_not_stops fun h => ?_).trans hj, hjoined⟩
      -- who waits for a pass is given up only with the pass
      obtain ⟨⟨t', ht', hlive, rfl | hj'⟩, -⟩ := h
      · cases hj.symm.trans ht'
        exact hstops ⟨⟨t, hj, hlive, Or.inr hjoined⟩, _, hk, rfl⟩
      · obtain ⟨t₁, ht₁, hpass⟩ := hs.joined id t' ht' j hj'
        cases hj.symm.trans ht₁
        cases t with
        | flush cache now stage => exact hpass
        | maintenance cache secs stage => exact hpass
        | _ => exact absurd hjoined List.not_mem_nil
  · by_cases hstops : s.Stops id j
    · cases (task?_abort_of_stops hstops).symm.trans hj
      exact absurd hk List.not_mem_nil
    · rw [task?_abort_of_not_stops hstops] at hj
      obtain ⟨t', ht', hpass⟩ := hs.joined j t hj k hk
      obtain ⟨t₁, ht₁, hb⟩ := leads_abort s id k t' ht'
      exact ⟨t₁, ht₁, hb.isPass hpass⟩

omit [Payload α] [DurableStore σ] in
theorem Attended.add (hs : s.Attended) (hnext : ∀ id t, s.task? id = some t → id < s.next)
    (hpass : ∀ cache p, t ≠ .pass cache p) (hjoined : t.joined = []) : (s.add t).2.Attended := by
  have hold : ∀ k t', s.task? k = some t' → (s.add t).2.task? k = some t' := fun k t' hk =>
    (task?_add_of_ne s t (Nat.ne_of_lt (hnext k t' hk))).trans hk
  have hcases : ∀ k t', (s.add t).2.task? k = some t' → t' = t ∨ s.task? k = some t' := by
    intro k t' hk
    have hset : (s.setTask s.next t).task? k = some t' := hk
    rw [task?_setTask] at hset
    split at hset
    · exact Or.inl (Option.some.inj hset).symm
    · exact Or.inr hset
  refine ⟨fun k cache p hk => ?_, fun j t₁ hj k hk => ?_⟩
  · rcases hcases k _ hk with heq | hk
    · exact absurd heq.symm (hpass cache p)
    · exact (hs.passes k cache p hk).imp id fun ⟨j, t₁, hj, hk⟩ => ⟨j, t₁, hold j t₁ hj, hk⟩
  · rcases hcases j _ hj with rfl | hj
    · rw [hjoined] at hk
      exact absurd hk List.not_mem_nil
    · obtain ⟨t₂, ht₂, hpass⟩ := hs.joined j t₁ hj k hk
      exact ⟨t₂, hold k t₂ ht₂, hpass⟩

theorem Attended.apply (hs : s.Attended) (horderly : s.Orderly log)
    (hnext : ∀ id t, s.task? id = some t → id < s.next) (ev : Event α ε σ) :
    (s.apply ev).Attended := by
  have hmove := apply_move s ev
  generalize s.news ev = more at hmove
  generalize s.apply ev = s' at hmove ⊢
  cases hmove with
  | step ht hturn => exact hturn.attended ht hs horderly hnext
  | abort => exact hs.abort _
  | lookup hc => exact hs.add hnext (by simp) rfl
  | flush => exact hs.add hnext (by simp) rfl
  | maintain => exact hs.add hnext (by simp) rfl
  | @invalidate cache q c hc =>
    refine ⟨fun k cache' p hk => (hs.passes k cache' p hk).imp_left fun h => ?_, hs.joined⟩
    exact (enlisted_congr (map_inFlight_setCache s cache _)).mpr h
  | idle => exact hs
  | disturb => exact ⟨hs.passes, hs.joined⟩

/-- In every run every pass in the background is attended. -/
theorem attended_run (store : σ) (specs : List (String × CacheSettings × Instant))
    (events : List (Event α ε σ)) : ((ofSpecs store specs).run events).Attended := by
  have hrun : (((ofSpecs store specs).run events).Numbered ((ofSpecs store specs).history events) ∧
      ((ofSpecs store specs).run events).Orderly ((ofSpecs store specs).history events)) ∧
      ((ofSpecs store specs).run events).Attended :=
    run_induction (P := fun s log => (s.Numbered log ∧ s.Orderly log) ∧ s.Attended)
      ⟨⟨numbered_ofSpecs store specs, orderly_ofSpecs store specs⟩, by simp, by simp⟩
      fun s log ev _ ⟨⟨hnumbered, horderly⟩, hs⟩ =>
        ⟨⟨hnumbered.apply ev, (apply_move s ev).orderly horderly hnumbered.tasks⟩,
          hs.apply horderly hnumbered.tasks ev⟩
  exact hrun.2

end Attended

/-! ## The flush at the end -/

end System

/-- How far a flush has come that was not given up: it has taken over the passes, waited for them,
    and taken what waits. -/
def Task.flushRank : Task α ε → Nat
  | .flush _ _ (.joining _) => 1
  | .flush _ _ .taking => 2
  | .flush _ _ (.writing _) => 3
  | .flushed _ => 3
  | _ => 0

namespace System

/-- Whether the flush of a number is the one operation under way, or is over. Once it has taken the
    passes over, none is enlisted; once it has waited for them, none is left; and once it has taken
    what waits, nothing waits. -/
structure Final (f : Nat) (s : System α ε σ) : Prop where
  called : ∃ t, s.task? f = some t
  flusher : ∀ k t, s.task? k = some t → t.isOperation = true →
    k = f ∧ ∃ now stage, t = .flush 0 now stage
  unlisted : ∀ t, s.task? f = some t → 1 ≤ t.flushRank → ∀ k, ¬ s.Enlisted k
  alone : ∀ t, s.task? f = some t → 2 ≤ t.flushRank → ∀ k cache p, s.task? k ≠ some (.pass cache p)
  emptied : ∀ t, s.task? f = some t → 3 ≤ t.flushRank → ∀ key, s.waiting? key = none

section Final

variable [Payload α] [DurableStore σ] {s s' : System α ε σ} {clock : Instant} {f id : Nat}
  {t : Task α ε} {more log : List (Happening α ε)}

/-- Who is no lookup enlists no pass, starts none and lets nothing wait. -/
theorem Turn.settles (h : Turn s clock id t more s')
    (hlookup : ∀ cache key now stage, t ≠ .lookup cache key now stage) :
    (∀ k, s'.Enlisted k → s.Enlisted k) ∧
      ((∀ key, s.waiting? key = none) → ∀ key, s'.waiting? key = none) := by
  have hcache : ∀ {cache c} {c' : TieredCache α} {t' : Task α ε}, s.cache? cache = some c →
      (∀ key, c'.writeBack.pendingFor? key = c.writeBack.pendingFor? key ∨
        c'.writeBack.pendingFor? key = none) →
      (∀ key, s.waiting? key = none) →
      ∀ key, ((s.setCache cache c').setTask id t').waiting? key = none := by
    intro cache c c' t' hc hpending hnone key
    unfold waiting?
    rw [cache?_setTask, cache?_setCache]
    split
    · next hzero =>
      rw [← hzero, hc]
      rcases hpending key with hsame | hnone'
      · have hold := hnone key
        rw [hzero] at hc
        rw [waiting?_eq hc] at hold
        exact hsame.trans hold
      · exact hnone'
    · exact hnone key
  cases h with
  | wrote hp howner hc =>
    exact ⟨fun k hk => enlisted_of_setCache hk, hcache hc fun key => Or.inl rfl⟩
  | @takeOver _ now cache slot hf howner hslot =>
    refine ⟨fun k hk => enlisted_of_setSlot hk, fun hnone key => ?_⟩
    have hsame := cache?_setSlot s cache 0 hslot []
    have hwaiting :=
      congrArg (Option.bind · fun c : TieredCache α => c.writeBack.pendingFor? key) hsame
    exact hwaiting.trans (hnone key)
  | @take _ now cache c hf howner hc =>
    refine ⟨fun k hk => enlisted_of_setCache hk, hcache hc fun key => Or.inr ?_⟩
    exact WriteBack.pendingFor?_takeAll c.writeBack now key
  | idle => exact ⟨fun _ h => h, fun h => h⟩
  | write => exact ⟨fun _ h => h, fun h => h⟩
  | broke => exact ⟨fun _ h => h, fun h => h⟩
  | wake => exact ⟨fun _ h => h, fun h => h⟩
  | wait => exact ⟨fun _ h => h, fun h => h⟩
  | join => exact ⟨fun _ h => h, fun h => h⟩
  | _ => exact absurd rfl (hlookup _ _ _ _)

/-- How a flush comes further. -/
theorem Turn.flush_rank {now : Instant} {stage : FlushStage α}
    (h : Turn s clock id (.flush 0 now stage) more s')
    (ht : s.task? id = some (.flush 0 now stage)) (hsingle : s.slots.length = 1) :
    ∃ t', s'.task? id = some t' ∧
      (t'.flushRank ≤ (Task.flush (ε := ε) 0 now stage).flushRank ∨
        (t'.flushRank = 1 ∧ ∀ k, ¬ s'.Enlisted k) ∨
        (t'.flushRank = 2 ∧ ∃ passes, stage = .joining passes ∧ ∀ p ∈ passes, s.isOver p = true) ∨
        (t'.flushRank = 3 ∧ stage = .taking ∧ ∀ key, s'.waiting? key = none)) := by
  have hset : ∀ {s₁ : System α ε σ} {t' : Task α ε}, (s₁.setTask id t').task? id = some t' :=
    fun {s₁ t'} => task?_setTask_self s₁ id t'
  have hwriting : ∀ {p : Pass α}, (Task.flush (ε := ε) 0 now stage).pass? = some p →
      stage = .writing p := by
    intro p hp
    cases stage <;> cases hp
    rfl
  cases h with
  | idle => exact ⟨_, ht, Or.inl (Nat.le_refl _)⟩
  | write store hp hcache hc hw ha =>
    cases hwriting hp
    exact ⟨_, hset, Or.inl (Nat.le_refl 3)⟩
  | broke store hp hcache hc hw => exact ⟨_, hset, Or.inl (Nat.zero_le _)⟩
  | wrote hp hcache hc =>
    cases hwriting hp
    exact ⟨_, hset, Or.inl (Nat.le_refl 3)⟩
  | @takeOver _ _ cache slot hf hcache hslot =>
    cases hf
    cases hcache
    obtain ⟨slot', hslots⟩ := List.length_eq_one_iff.mp hsingle
    refine ⟨_, hset, Or.inr (Or.inl ⟨rfl, ?_⟩)⟩
    rintro k ⟨slot₁, hslot₁, hk⟩
    have hmem : slot₁ ∈ s.slots.set 0 { slot with inFlight := [] } := hslot₁
    rw [hslots, List.set_cons_zero, List.mem_singleton] at hmem
    rw [hmem] at hk
    exact absurd hk List.not_mem_nil
  | wait hf =>
    cases hf
    exact ⟨_, hset, Or.inl (Nat.le_refl 1)⟩
  | join hf hover =>
    cases hf
    exact ⟨_, hset, Or.inr (Or.inr (Or.inl ⟨rfl, _, rfl, hover⟩))⟩
  | @take _ _ cache c hf hcache hc =>
    cases hf
    cases hcache
    refine ⟨_, hset, Or.inr (Or.inr (Or.inr ⟨rfl, rfl, fun key => ?_⟩))⟩
    exact (waiting?_setCache hc _ key).trans (WriteBack.pendingFor?_takeAll c.writeBack now key)

/-- Nobody but the flush is an operation after a turn, either. -/
theorem Final.turn_flusher (h : s.Final f) (hturn : Turn s clock id t more s')
    (ht : s.task? id = some t) (hnext : ∀ id t, s.task? id = some t → id < s.next) {k : Nat}
    {t' : Task α ε} (hk : s'.task? k = some t') (hop : t'.isOperation = true) :
    k = f ∧ ∃ now stage, t' = .flush 0 now stage := by
  rcases hturn.task?_cases hk with rfl | hold | ⟨_, _, rfl⟩
  · obtain ⟨t₁, ht₁, hb⟩ := hturn.leads ht hnext k t ht
    cases hk.symm.trans ht₁
    by_cases hop' : t.isOperation = true
    · obtain ⟨rfl, now, stage, rfl⟩ := h.flusher k t ht hop'
      rcases hb with ⟨stage', rfl⟩ | ⟨_, rfl⟩ | rfl
      · exact ⟨rfl, now, stage', rfl⟩
      · cases hop
      · cases hop
    · cases t with
      | pass cache p => rcases hb with ⟨_, rfl⟩ | rfl | rfl <;> cases hop
      | lookup cache key now stage => exact absurd rfl hop'
      | flush cache now stage => exact absurd rfl hop'
      | maintenance cache secs stage => exact absurd rfl hop'
      | _ =>
        cases hb.eq_of_isOver rfl
        cases hop
  · exact h.flusher k t' hold hop
  · cases hop

/-- The flush goes on in its own turns only. -/
theorem Final.turn_rank (h : s.Final f) (hturn : Turn s clock id t more s')
    (ht : s.task? id = some t) (hnext : ∀ id t, s.task? id = some t → id < s.next)
    (hsingle : s.slots.length = 1) {t' : Task α ε} (hf : s'.task? f = some t') :
    ∃ t₀, s.task? f = some t₀ ∧
      (t'.flushRank ≤ t₀.flushRank ∨ (t'.flushRank = 1 ∧ ∀ k, ¬ s'.Enlisted k) ∨
        (t'.flushRank = 2 ∧ t₀.flushRank = 1 ∧ ∀ p ∈ t₀.joined, s.isOver p = true) ∨
        (t'.flushRank = 3 ∧ t₀.flushRank = 2 ∧ ∀ key, s'.waiting? key = none)) := by
  obtain ⟨t₀, ht₀⟩ := h.called
  refine ⟨t₀, ht₀, ?_⟩
  rcases hturn.task?_cases hf with rfl | hold | ⟨_, _, rfl⟩
  · cases ht.symm.trans ht₀
    obtain ⟨t₁, ht₁, hb⟩ := hturn.leads ht hnext f t ht
    cases hf.symm.trans ht₁
    by_cases hop : t.isOperation = true
    · obtain ⟨-, now, stage, rfl⟩ := h.flusher f t ht hop
      obtain ⟨t₂, ht₂, hrank⟩ := hturn.flush_rank ht hsingle
      cases hf.symm.trans ht₂
      rcases hrank with hle | hone | ⟨htwo, passes, rfl, hover⟩ | ⟨hthree, rfl, hnone⟩
      · exact Or.inl hle
      · exact Or.inr (Or.inl hone)
      · exact Or.inr (Or.inr (Or.inl ⟨htwo, rfl, hover⟩))
      · exact Or.inr (Or.inr (Or.inr ⟨hthree, rfl, hnone⟩))
    · cases t with
      | pass cache p => rcases hb with ⟨_, rfl⟩ | rfl | rfl <;> exact Or.inl (Nat.zero_le _)
      | lookup cache key now stage => exact absurd rfl hop
      | flush cache now stage => exact absurd rfl hop
      | maintenance cache secs stage => exact absurd rfl hop
      | _ =>
        cases hb.eq_of_isOver rfl
        exact Or.inl (Nat.le_refl _)
  · cases ht₀.symm.trans hold
    exact Or.inl (Nat.le_refl _)
  · exact Or.inl (Nat.zero_le _)

theorem Final.turn (h : s.Final f) (hturn : Turn s clock id t more s') (ht : s.task? id = some t)
    (hattended : s.Attended) (hnext : ∀ id t, s.task? id = some t → id < s.next)
    (hsingle : s.slots.length = 1) : s'.Final f := by
  have hlookup : ∀ cache key now stage, t ≠ .lookup cache key now stage := by
    rintro cache key now stage rfl
    obtain ⟨-, _, _, heq⟩ := h.flusher id _ ht rfl
    cases heq
  obtain ⟨hlisted, hwaiting⟩ := hturn.settles hlookup
  have hleads := hturn.leads ht hnext
  -- a pass was one before, as nobody starts one
  have hpass : ∀ k cache p, s'.task? k = some (.pass cache p) →
      ∃ p', s.task? k = some (.pass cache p') := by
    intro k cache p hk
    rcases (hturn.attends ht).1 k cache p hk with hold | ⟨-, _, _, _, _, rfl⟩
    · exact hold
    · exact absurd rfl (hlookup _ _ _ _)
  have hrank := fun t' (hf : s'.task? f = some t') => h.turn_rank hturn ht hnext hsingle hf
  have hcalled : ∃ t', s'.task? f = some t' := by
    obtain ⟨t₀, ht₀⟩ := h.called
    obtain ⟨t', ht', -⟩ := hleads f t₀ ht₀
    exact ⟨t', ht'⟩
  refine ⟨hcalled, fun k t' => h.turn_flusher hturn ht hnext, fun t' hf hr k hk => ?_,
    fun t' hf hr k cache p hk => ?_, fun t' hf hr key => ?_⟩
  · obtain ⟨t₀, ht₀, hle | ⟨-, hnone⟩ | ⟨-, hone, -⟩ | ⟨-, htwo, -⟩⟩ := hrank t' hf
    · exact h.unlisted t₀ ht₀ (Nat.le_trans hr hle) k (hlisted k hk)
    · exact hnone k hk
    · exact h.unlisted t₀ ht₀ (Nat.le_of_eq hone.symm) k (hlisted k hk)
    · exact h.unlisted t₀ ht₀ (by omega) k (hlisted k hk)
  · obtain ⟨p', hold⟩ := hpass k cache p hk
    obtain ⟨t₀, ht₀, hle | ⟨hone, -⟩ | ⟨-, hone, hover⟩ | ⟨-, htwo, -⟩⟩ := hrank t' hf
    · exact h.alone t₀ ht₀ (Nat.le_trans hr hle) k cache p' hold
    · omega
    · rcases hattended.passes k cache p' hold with hlist | ⟨j, t₁, hj, hjoined⟩
      · exact h.unlisted t₀ ht₀ (Nat.le_of_eq hone.symm) k hlist
      · have hop : t₁.isOperation = true := by
          cases t₁ with
          | flush cache now stage => rfl
          | maintenance cache secs stage => rfl
          | _ => exact absurd hjoined List.not_mem_nil
        obtain ⟨rfl, -⟩ := h.flusher j t₁ hj hop
        cases ht₀.symm.trans hj
        have hk' := hover k hjoined
        unfold isOver at hk'
        rw [hold] at hk'
        cases hk'
    · exact h.alone t₀ ht₀ (by omega) k cache p' hold
  · obtain ⟨t₀, ht₀, hle | ⟨hone, -⟩ | ⟨htwo, -⟩ | ⟨-, -, hnone⟩⟩ := hrank t' hf
    · exact hwaiting (h.emptied t₀ ht₀ (Nat.le_trans hr hle)) key
    · omega
    · omega
    · exact hnone key

/-- Every event that calls nothing keeps the invariant. -/
theorem Final.apply (h : s.Final f) (hattended : s.Attended)
    (hnext : ∀ id t, s.task? id = some t → id < s.next) (hsingle : s.slots.length = 1)
    {ev : Event α ε σ} (hcall : ev.isCall = false) : (s.apply ev).Final f := by
  have hmove := apply_move s ev
  generalize s.news ev = more at hmove
  generalize s.apply ev = s' at hmove ⊢
  cases hmove with
  | idle => exact h
  | step ht hturn => exact h.turn hturn ht hattended hnext hsingle
  | disturb => exact ⟨h.called, h.flusher, h.unlisted, h.alone, h.emptied⟩
  | @abort id =>
    have hslots : (s.abort id).slots = s.slots := (abort_frame s id).2.1
    have hwaiting : ∀ key, (s.abort id).waiting? key = s.waiting? key := fun key => by
      unfold waiting? cache?
      rw [hslots]
    have htasks : ∀ k t, (s.abort id).task? k = some t → t = .aborted ∨ s.task? k = some t := by
      intro k t hk
      rcases task?_abort_cases s id k with hsame | ⟨-, habort⟩
      · exact Or.inr (hsame.symm.trans hk)
      · exact Or.inl (Option.some.inj (habort.symm.trans hk)).symm
    refine ⟨?_, fun k t hk hop => ?_, fun t hf hr k hk => ?_, fun t hf hr k cache p hk => ?_,
      fun t hf hr key => ?_⟩
    · obtain ⟨t, ht⟩ := h.called
      obtain ⟨t', ht', -⟩ := leads_abort s id f t ht
      exact ⟨t', ht'⟩
    · rcases htasks k t hk with rfl | hk
      · cases hop
      · exact h.flusher k t hk hop
    · rcases htasks f t hf with rfl | hf
      · cases hr
      · exact h.unlisted t hf hr k ((enlisted_congr (congrArg _ hslots)).mp hk)
    · rcases htasks f t hf with rfl | hf
      · cases hr
      · rcases htasks k _ hk with hab | hk
        · cases hab
        · exact h.alone t hf hr k cache p hk
    · rcases htasks f t hf with rfl | hf
      · cases hr
      · exact (hwaiting key).trans (h.emptied t hf hr key)
  | lookup hc => cases hcall
  | flush => cases hcall
  | maintain => cases hcall
  | invalidate hc => cases hcall

omit [Payload α] [DurableStore σ] in
/-- A flush that is called when no operation is under way. -/
theorem final_add (hrest : s.isResting = true) (now : Instant) :
    (s.add (.flush 0 now .starting)).2.Final s.next := by
  have htasks : ∀ k, (s.add (.flush 0 now .starting)).2.task? k =
      (s.setTask s.next (.flush 0 now .starting)).task? k := fun _ => rfl
  have hflush :
      (s.add (.flush 0 now .starting)).2.task? s.next = some (.flush 0 now .starting) := by
    rw [htasks, task?_setTask, if_pos rfl]
  refine ⟨⟨_, hflush⟩, fun k t hk hop => ?_, fun t hf hr => ?_, fun t hf hr => ?_,
    fun t hf hr => ?_⟩
  · obtain ⟨heq, now, stage, rfl, -⟩ := (draining_add hrest now).flusher k t hk hop
    exact ⟨heq, now, stage, rfl⟩
  · cases hflush.symm.trans hf
    cases hr
  · cases hflush.symm.trans hf
    cases hr
  · cases hflush.symm.trans hf
    cases hr

/-- In the course of a flush that is called when no operation is under way, as long as nothing is
    called after it. -/
theorem final_run {store : σ} {space : String} {settings : CacheSettings} {startedAt now : Instant}
    {before tail : List (Event α ε σ)}
    (hrest : ((single store space settings startedAt).run before).isResting = true)
    (htail : ∀ ev ∈ tail, ev.isCall = false) :
    ((single store space settings startedAt).run (before ++ .flush 0 now :: tail)).Final
      ((single store space settings startedAt).run before).next := by
  refine prefix_induction (P := fun part =>
    ((single store space settings startedAt).run (before ++ .flush 0 now :: part)).Final
      ((single store space settings startedAt).run before).next) ?_
    fun part ev after hsplit h => ?_
  · rw [run_concat]
    exact final_add hrest now
  · rw [← List.cons_append, ← List.append_assoc, run_concat]
    refine h.apply (attended_run store _ _) (numbered_run store _ _).tasks
      (length_slots_run _ _) (htail ev ?_)
    rw [hsplit]
    exact List.mem_append_right _ List.mem_cons_self

omit [Payload α] [DurableStore σ] in
/-- When the flush at the end has returned, all tasks are over and nothing waits. -/
theorem Final.over {report : FlushReport} (h : s.Final f)
    (hflushed : s.task? f = some (.flushed report)) :
    (∀ k t, s.task? k = some t → t.isOver = true) ∧ ∀ key, s.waiting? key = none := by
  refine ⟨fun k t hk => ?_, h.emptied _ hflushed (Nat.le_refl 3)⟩
  have hop : t.isOperation ≠ true := by
    intro hop
    obtain ⟨rfl, _, _, rfl⟩ := h.flusher k t hk hop
    cases hflushed.symm.trans hk
  cases t with
  | pass cache p => exact absurd hk (h.alone _ hflushed (Nat.le_succ 2) k cache p)
  | lookup cache key now stage => exact absurd rfl hop
  | flush cache now stage => exact absurd rfl hop
  | maintenance cache secs stage => exact absurd rfl hop
  | _ => rfl

end Final

end System

end MarketCache
