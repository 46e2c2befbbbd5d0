import MarketCache.Proofs.System.Turn

/-!
# The numbers of tasks

Tasks are numbered in the order in which they are started, and no number is used twice.

Results:
* `Numbered.apply`: every event keeps the numbers of tasks, and of what happened, below the
  next number.
* `numbered_run`: so they are in every run.
-/

namespace MarketCache

namespace System

variable {α ε σ : Type} {s s' : System α ε σ} {log more : List (Happening α ε)} {id : Nat}

/-- Whether the numbers of tasks, and those in the history, are below the next one. -/
structure Numbered (s : System α ε σ) (log : List (Happening α ε)) : Prop where
  tasks : ∀ id t, s.task? id = some t → id < s.next
  log : ∀ x ∈ log, x.id < s.next

theorem numbered_ofSpecs (store : σ) (specs : List (String × CacheSettings × Instant)) :
    (ofSpecs store specs : System α ε σ).Numbered [] where
  tasks id t ht := by
    rw [task?_ofSpecs] at ht
    simp at ht
  log x hx := absurd hx List.not_mem_nil

theorem Numbered.extend (h : s.Numbered log) (hmore : ∀ x ∈ more, x.id < s.next) :
    s.Numbered (log ++ more) where
  tasks := h.tasks
  log x hx := by
    rcases List.mem_append.mp hx with hx | hx
    · exact h.log x hx
    · exact hmore x hx

/-- The next number is free. -/
theorem Numbered.task?_next (h : s.Numbered log) : s.task? s.next = none := by
  rcases ht : s.task? s.next with _ | t
  · rfl
  · exact absurd (h.tasks s.next t ht) (Nat.lt_irrefl _)

theorem Numbered.setTask (h : s.Numbered log) (hid : id < s.next) (t : Task α ε) :
    (s.setTask id t).Numbered log where
  tasks id' t' ht' := by
    rw [task?_setTask] at ht'
    split at ht'
    · next heq =>
      rw [← heq]
      exact hid
    · exact h.tasks id' t' ht'
  log := h.log

theorem Numbered.add (h : s.Numbered log) (t : Task α ε) : (s.add t).2.Numbered log where
  tasks id' t' ht' := by
    show id' < s.next + 1
    have ht : (s.setTask s.next t).task? id' = some t' := ht'
    rw [task?_setTask] at ht
    split at ht
    · omega
    · have hlt := h.tasks id' t' ht
      omega
  log x hx := by
    show x.id < s.next + 1
    have hlt := h.log x hx
    omega

variable [Payload α] [DurableStore σ] {clock : Instant} {t : Task α ε}

theorem Turn.numbered (h : Turn s clock id t more s') (hs : s.Numbered log)
    (hid : id < s.next) : s'.Numbered (log ++ more) := by
  have hmore : s.Numbered (log ++ more) := by
    refine hs.extend fun x hx => ?_
    rw [h.id_of_mem x hx]
    exact hid
  cases h with
  | idle => exact hmore
  | detach cache batch =>
    have hadd := hmore.add (.pass cache (.ofBatch batch))
    exact ⟨(hadd.setTask (Nat.lt_succ_of_lt hid) _).tasks, hadd.log⟩
  | _ => exact ⟨(hmore.setTask hid _).tasks, hmore.log⟩

theorem Move.numbered {ev : Event α ε σ} (h : Move s ev more s') (hs : s.Numbered log) :
    s'.Numbered (log ++ more) := by
  cases h with
  | lookup hc =>
    refine (hs.add _).extend fun x hx => ?_
    rw [List.mem_singleton.mp hx]
    exact Nat.lt_succ_self s.next
  | @step clock outcome id t _ _ ht hturn => exact hturn.numbered hs (hs.tasks id t ht)
  | abort =>
    rw [List.append_nil]
    exact abort_induction (P := fun s => s.Numbered log) hs
      (fun s id t ht _ h => h.setTask (h.tasks id t ht) _) _
  | idle => rw [List.append_nil]; exact hs
  | flush => rw [List.append_nil]; exact hs.add _
  | maintain => rw [List.append_nil]; exact hs.add _
  | invalidate hc => rw [List.append_nil]; exact ⟨hs.tasks, hs.log⟩
  | disturb => rw [List.append_nil]; exact ⟨hs.tasks, hs.log⟩

/-- Every event keeps the numbers in order. -/
theorem Numbered.apply (h : s.Numbered log) (ev : Event α ε σ) :
    (s.apply ev).Numbered (log ++ s.news ev) := (apply_move s ev).numbered h

/-- The numbers are in order in every run. -/
theorem numbered_run (store : σ) (specs : List (String × CacheSettings × Instant))
    (events : List (Event α ε σ)) :
    ((ofSpecs store specs).run events).Numbered ((ofSpecs store specs).history events) :=
  run_induction (P := Numbered) (numbered_ofSpecs store specs) fun _ _ ev _ h => h.apply ev

end System

end MarketCache
