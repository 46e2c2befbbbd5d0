import MarketCache.Proofs.System.Numbers

/-!
# What becomes of tasks

A task that is over stays as it is. A pass in the background stays one until it has ended or was
aborted, and a flush until it has returned or was aborted. So what a flush takes over are
passes at any time later, and a lookup that handed its batch on takes no more steps.

Main definitions:
* `Task.Becomes`: what a task can have become later.
* `System.Orderly`: the invariant.

Results:
* `Move.leads`: what an event makes of the tasks.
* `Move.orderly`: every event keeps the invariant.
-/

namespace MarketCache

variable {α ε σ : Type}

/-- What a task can have become later; nothing is said of lookups and of tasks that flush from
    time to time, but that they may go on. -/
def Task.Becomes : Task α ε → Task α ε → Prop
  | .pass cache _, t => (∃ p, t = .pass cache p) ∨ t = .ended ∨ t = .aborted
  | .flush cache now _, t =>
    (∃ stage, t = .flush cache now stage) ∨ (∃ report, t = .flushed report) ∨ t = .aborted
  | .lookup _ _ _ _, _ => True
  | .maintenance _ _ _, _ => True
  | t, t' => t' = t

/-- Whether a task is a pass in the background, perhaps one that is over. -/
def Task.IsPass : Task α ε → Prop
  | .pass _ _ => True
  | .ended => True
  | .aborted => True
  | _ => False

namespace Task

variable {t t' : Task α ε}

theorem becomes_refl (t : Task α ε) : t.Becomes t := by
  cases t with
  | lookup cache key now stage => exact trivial
  | flush cache now stage => exact Or.inl ⟨stage, rfl⟩
  | pass cache p => exact Or.inl ⟨p, rfl⟩
  | maintenance cache secs stage => exact trivial
  | _ => rfl

theorem becomes_aborted (h : t.isOver = false) : t.Becomes .aborted := by
  cases t with
  | lookup cache key now stage => exact trivial
  | flush cache now stage => exact Or.inr (Or.inr rfl)
  | pass cache p => exact Or.inr (Or.inr rfl)
  | maintenance cache secs stage => exact trivial
  | _ => cases h

theorem Becomes.eq_of_isOver (h : t.Becomes t') (hover : t.isOver = true) : t' = t := by
  cases t with
  | lookup cache key now stage => cases hover
  | flush cache now stage => cases hover
  | pass cache p => cases hover
  | maintenance cache secs stage => cases hover
  | _ => exact h

theorem Becomes.isPass (h : t.Becomes t') (hpass : t.IsPass) : t'.IsPass := by
  cases t with
  | pass cache p =>
    rcases h with ⟨p', rfl⟩ | rfl | rfl <;> exact trivial
  | ended =>
    rw [show t' = .ended from h]
    exact trivial
  | aborted =>
    rw [show t' = .aborted from h]
    exact trivial
  | _ => exact absurd hpass not_false

theorem becomes_withPass {p : Pass α} (hp : t.pass? = some p) (p' : Pass α) :
    t.Becomes (t.withPass p') := by
  rcases System.writer_cases hp with ⟨_, _, _, _, rfl⟩ | ⟨_, _, rfl⟩ | ⟨_, rfl⟩ | ⟨_, _, _, rfl⟩
  · exact trivial
  · exact Or.inl ⟨_, rfl⟩
  · exact Or.inl ⟨_, rfl⟩
  · exact trivial

theorem becomes_afterPass {p : Pass α} (hp : t.pass? = some p) (r : FlushReport) :
    t.Becomes (t.afterPass r) := by
  rcases System.writer_cases hp with ⟨_, _, _, _, rfl⟩ | ⟨_, _, rfl⟩ | ⟨_, rfl⟩ | ⟨_, _, _, rfl⟩
  · exact trivial
  · exact Or.inr (Or.inl ⟨r, rfl⟩)
  · exact Or.inr (Or.inl rfl)
  · exact trivial

theorem becomes_withFlush {now : Instant} {stage : FlushStage α}
    (hf : t.flushing? = some (now, stage)) (stage' : FlushStage α) :
    t.Becomes (t.withFlush stage') := by
  rcases System.flusher_cases hf with ⟨_, rfl⟩ | ⟨_, _, rfl⟩
  · exact Or.inl ⟨stage', rfl⟩
  · exact trivial

end Task

namespace System

/-! ## What events make of tasks -/

/-- Whether each task is still there, and what it can have become. -/
def Leads (s s' : System α ε σ) : Prop :=
  ∀ id t, s.task? id = some t → ∃ t', s'.task? id = some t' ∧ t.Becomes t'

section Leads

variable {s s' : System α ε σ} {id : Nat} {t t' : Task α ε}

theorem leads_refl (s : System α ε σ) : s.Leads s := fun _ t ht => ⟨t, ht, t.becomes_refl⟩

theorem Leads.setTask (h : s.Leads s') (ht : s.task? id = some t) (hb : t.Becomes t') :
    s.Leads (s'.setTask id t') := by
  intro id' t₀ ht₀
  by_cases hid : id = id'
  · rw [← hid, ht] at ht₀
    cases ht₀
    refine ⟨t', ?_, hb⟩
    rw [task?_setTask, if_pos hid]
  · obtain ⟨t₁, ht₁, hb₁⟩ := h id' t₀ ht₀
    refine ⟨t₁, ?_, hb₁⟩
    rw [task?_setTask, if_neg hid]
    exact ht₁

theorem leads_add (hnext : ∀ id t, s.task? id = some t → id < s.next) (t : Task α ε) :
    s.Leads (s.add t).2 := by
  intro id' t' ht'
  refine ⟨t', ?_, t'.becomes_refl⟩
  have hne : s.next ≠ id' := by
    have hlt := hnext id' t' ht'
    omega
  show (s.setTask s.next t).task? id' = some t'
  rw [task?_setTask, if_neg hne]
  exact ht'

theorem leads_abort (s : System α ε σ) (id : Nat) : s.Leads (s.abort id) := by
  refine abort_induction (P := fun s' => s.Leads s') (leads_refl s) ?_ id
  intro s' id' t' ht' hset hleads id₀ t₀ ht₀
  by_cases hid : id' = id₀
  · refine ⟨.aborted, ?_, ?_⟩
    · rw [task?_setTask, if_pos hid]
    · obtain ⟨t₁, ht₁, hb⟩ := hleads id₀ t₀ ht₀
      rw [← hid, ht'] at ht₁
      cases ht₁
      rcases hset with hlive | rfl
      · refine Task.becomes_aborted ?_
        by_cases hover : t₀.isOver = true
        · rw [hb.eq_of_isOver hover, hover] at hlive
          simp at hlive
        · exact Bool.not_eq_true _ ▸ hover
      · exact hb
  · obtain ⟨t₁, ht₁, hb⟩ := hleads id₀ t₀ ht₀
    refine ⟨t₁, ?_, hb⟩
    rw [task?_setTask, if_neg hid]
    exact ht₁

variable [Payload α] [DurableStore σ] {clock : Instant} {more : List (Happening α ε)}

theorem Turn.leads (h : Turn s clock id t more s') (ht : s.task? id = some t)
    (hnext : ∀ id t, s.task? id = some t → id < s.next) : s.Leads s' := by
  cases h with
  | idle => exact leads_refl s
  | write store hp hcache hc hw ha =>
    exact Leads.setTask (leads_refl s) ht (Task.becomes_withPass hp _)
  | broke store hp hcache hc hw =>
    exact Leads.setTask (leads_refl s) ht (Task.becomes_aborted (isOver_of_pass? hp))
  | wrote hp hcache hc => exact Leads.setTask (leads_refl s) ht (Task.becomes_afterPass hp _)
  | takeOver hf hcache hslot => exact Leads.setTask (leads_refl s) ht (Task.becomes_withFlush hf _)
  | wait hf => exact Leads.setTask (leads_refl s) ht (Task.becomes_withFlush hf _)
  | join hf hover => exact Leads.setTask (leads_refl s) ht (Task.becomes_withFlush hf _)
  | take hf hcache hc => exact Leads.setTask (leads_refl s) ht (Task.becomes_withFlush hf _)
  | detach cache batch => exact Leads.setTask (leads_add hnext _) ht trivial
  | _ => exact Leads.setTask (leads_refl s) ht trivial

/-- What an event makes of each task. -/
theorem Move.leads {ev : Event α ε σ} (h : Move s ev more s')
    (hnext : ∀ id t, s.task? id = some t → id < s.next) : s.Leads s' := by
  cases h with
  | idle => exact leads_refl s
  | lookup hc => exact leads_add hnext _
  | flush => exact leads_add hnext _
  | maintain => exact leads_add hnext _
  | invalidate hc => exact leads_refl s
  | step ht hturn => exact hturn.leads ht hnext
  | abort => exact leads_abort s _
  | disturb => exact leads_refl s

end Leads

/-! ## Passes in the background -/

/-- Whether a pass of some cache runs in the background and nobody has waited for it. -/
def Enlisted (s : System α ε σ) (p : Nat) : Prop := ∃ slot ∈ s.slots, p ∈ slot.inFlight

section Enlisted

variable {s : System α ε σ} {p : Nat}

theorem enlisted_of_modify {cache : Nat} {f : Slot α → Slot α} {q : Prop}
    (h : Enlisted { s with slots := s.slots.modify cache f } p)
    (hf : ∀ slot, p ∈ (f slot).inFlight → p ∈ slot.inFlight ∨ q) : s.Enlisted p ∨ q := by
  obtain ⟨slot, hslot, hp⟩ := h
  obtain ⟨i, hi⟩ := List.mem_iff_getElem?.mp hslot
  rw [List.getElem?_modify] at hi
  rcases hs : s.slots[i]? with _ | slot'
  · rw [hs] at hi
    simp at hi
  · have hmem := List.mem_of_getElem? hs
    by_cases hcache : cache = i
    · simp only [hs, if_pos hcache] at hi
      cases hi
      rcases hf slot' hp with hp | hnew
      · exact Or.inl ⟨slot', hmem, hp⟩
      · exact Or.inr hnew
    · simp only [hs, if_neg hcache] at hi
      cases hi
      exact Or.inl ⟨slot', hmem, hp⟩

theorem enlisted_of_setCache {cache : Nat} {c : TieredCache α}
    (h : (s.setCache cache c).Enlisted p) : s.Enlisted p := by
  have hmodify : s.Enlisted p ∨ False := enlisted_of_modify h fun slot hp => Or.inl hp
  exact hmodify.resolve_right not_false

theorem enlisted_of_setSlot {cache : Nat} {c : TieredCache α}
    (h : (s.setSlot cache ⟨c, []⟩).Enlisted p) : s.Enlisted p := by
  obtain ⟨slot, hslot, hp⟩ := h
  rcases List.mem_or_eq_of_mem_set hslot with hmem | rfl
  · exact ⟨slot, hmem, hp⟩
  · simp at hp

end Enlisted

/-- Whether what is enlisted, and what was ever taken over, are passes, and a lookup that handed
    its batch on has answered. -/
structure Orderly (s : System α ε σ) (log : List (Happening α ε)) : Prop where
  enlisted : ∀ p, s.Enlisted p → ∃ t, s.task? p = some t ∧ t.IsPass
  takenOver : ∀ id passes, .tookOver id passes ∈ log → ∀ p ∈ passes,
    ∃ t, s.task? p = some t ∧ t.IsPass
  handed : ∀ id pass, .handed id pass ∈ log → ∃ answer, s.task? id = some (.answered answer)

section Orderly

variable {s s' : System α ε σ} {log more : List (Happening α ε)} {id : Nat} {t : Task α ε}

theorem orderly_ofSpecs (store : σ) (specs : List (String × CacheSettings × Instant)) :
    (ofSpecs store specs : System α ε σ).Orderly [] where
  enlisted p h := by
    obtain ⟨slot, hslot, hp⟩ := h
    obtain ⟨c, -, rfl⟩ := List.mem_map.mp hslot
    simp at hp
  takenOver id passes hmem := absurd hmem List.not_mem_nil
  handed id pass hmem := absurd hmem List.not_mem_nil

/-- Tasks only become what they can become; what is enlisted, taken over and handed on anew has
    to be looked at. -/
theorem Orderly.extend (h : s.Orderly log) (hleads : s.Leads s')
    (henlisted : ∀ p, s'.Enlisted p → s.Enlisted p ∨ ∃ t, s'.task? p = some t ∧ t.IsPass)
    (htakenOver : ∀ id passes, .tookOver id passes ∈ more → ∀ p ∈ passes, s.Enlisted p)
    (hhanded : ∀ id pass, .handed id pass ∈ more →
      ∃ answer, s'.task? id = some (.answered answer)) : s'.Orderly (log ++ more) := by
  have hpass : ∀ p, (∃ t, s.task? p = some t ∧ t.IsPass) → ∃ t, s'.task? p = some t ∧ t.IsPass := by
    rintro p ⟨t, ht, hp⟩
    obtain ⟨t', ht', hb⟩ := hleads p t ht
    exact ⟨t', ht', hb.isPass hp⟩
  refine ⟨fun p hp => ?_, fun id passes hmem p hp => ?_, fun id pass hmem => ?_⟩
  · rcases henlisted p hp with hold | hnew
    · exact hpass p (h.enlisted p hold)
    · exact hnew
  · rcases List.mem_append.mp hmem with hold | hnew
    · exact hpass p (h.takenOver id passes hold p hp)
    · exact hpass p (h.enlisted p (htakenOver id passes hnew p hp))
  · rcases List.mem_append.mp hmem with hold | hnew
    · obtain ⟨answer, ht⟩ := h.handed id pass hold
      obtain ⟨t', ht', hb⟩ := hleads id _ ht
      rw [hb.eq_of_isOver rfl] at ht'
      exact ⟨answer, ht'⟩
    · exact hhanded id pass hnew

variable [Payload α] [DurableStore σ] {clock : Instant}

theorem Turn.orderly (h : Turn s clock id t more s') (ht : s.task? id = some t)
    (hs : s.Orderly log) (hnext : ∀ id t, s.task? id = some t → id < s.next) :
    s'.Orderly (log ++ more) := by
  have hleads := h.leads ht hnext
  cases h with
  | @detach key now answer cache batch =>
    refine hs.extend hleads (fun p hp => ?_) (by simp) ?_
    · have hmodify : s.Enlisted p ∨ p = s.next := by
        refine enlisted_of_modify hp fun slot hp => ?_
        rcases List.mem_append.mp hp with hp | hp
        · exact Or.inl hp
        · exact Or.inr (List.mem_singleton.mp hp)
      rcases hmodify with hold | rfl
      · exact Or.inl hold
      · have hne : id ≠ s.next := by
          have hlt := hnext id _ ht
          omega
        refine Or.inr ⟨.pass cache (.ofBatch batch), ?_, trivial⟩
        show (setTask (s.setTask s.next _) id _).task? s.next = _
        rw [task?_setTask, if_neg hne, task?_setTask, if_pos rfl]
    · intro id' pass hmem
      have hid : id' = id := by
        rcases List.mem_cons.mp hmem with heq | hmem
        · cases heq
          rfl
        · cases List.mem_singleton.mp hmem
      refine ⟨answer, ?_⟩
      rw [hid, task?_setTask, if_pos rfl]
  | @takeOver _ now cache slot hf hcache hslot =>
    refine hs.extend hleads (fun p hp => Or.inl (enlisted_of_setSlot hp)) ?_ (by simp)
    intro id' passes hmem p hp
    cases List.mem_singleton.mp hmem
    exact ⟨slot, List.mem_of_getElem? hslot, hp⟩
  | @wrote _ cache c r hp hcache hc =>
    refine hs.extend hleads (fun p hp => Or.inl (enlisted_of_setCache hp)) ?_ ?_
    · intro id' passes hmem
      split at hmem
      · cases List.mem_singleton.mp hmem
      · exact absurd hmem List.not_mem_nil
    · intro id' pass hmem
      split at hmem
      · cases List.mem_singleton.mp hmem
      · exact absurd hmem List.not_mem_nil
  | idle => exact hs.extend hleads (fun p hp => Or.inl hp) (by simp) (by simp)
  | read store hget => exact hs.extend hleads (fun p hp => Or.inl hp) (by simp) (by simp)
  | refused err => exact hs.extend hleads (fun p hp => Or.inl hp) (by simp) (by simp)
  | rest => exact hs.extend hleads (fun p hp => Or.inl hp) (by simp) (by simp)
  | write store hp hcache hc hw ha =>
    exact hs.extend hleads (fun p hp => Or.inl hp) (by simp) (by simp)
  | broke store hp hcache hc hw =>
    exact hs.extend hleads (fun p hp => Or.inl hp) (by simp) (by simp)
  | wake => exact hs.extend hleads (fun p hp => Or.inl hp) (by simp) (by simp)
  | wait hf => exact hs.extend hleads (fun p hp => Or.inl hp) (by simp) (by simp)
  | join hf hover => exact hs.extend hleads (fun p hp => Or.inl hp) (by simp) (by simp)
  | _ =>
    exact hs.extend hleads (fun p hp => Or.inl (enlisted_of_setCache hp)) (by simp) (by simp)

/-- Every event keeps the invariant. -/
theorem Move.orderly {ev : Event α ε σ} (h : Move s ev more s') (hs : s.Orderly log)
    (hnext : ∀ id t, s.task? id = some t → id < s.next) : s'.Orderly (log ++ more) := by
  have hleads := h.leads hnext
  cases h with
  | step ht hturn => exact hturn.orderly ht hs hnext
  | invalidate hc =>
    exact hs.extend hleads (fun p hp => Or.inl (enlisted_of_setCache hp)) (by simp) (by simp)
  | @abort id =>
    refine hs.extend hleads (fun p hp => Or.inl ?_) (by simp) (by simp)
    obtain ⟨slot, hslot, hp⟩ := hp
    exact ⟨slot, (abort_frame s id).2.1 ▸ hslot, hp⟩
  | _ => exact hs.extend hleads (fun p hp => Or.inl hp) (by simp) (by simp)

end Orderly

end System

end MarketCache
