import MarketCache.Proofs.System.Flow

/-!
# Entries on their way to the store, one operation at a time

In a sequential run of a single cache that writes its passes itself, what was fetched waits in
the cache, is taken by the one operation under way, and is then put into the store, unless it
cannot be encoded.

Main definition: `System.Stir`, all that an event of a sequential run can do.

Result: `apply_stir`, an event of a sequential run does one of these things, if the store accepts
what is written.
-/

namespace MarketCache

namespace System

variable {α ε σ : Type}

section Lone

variable {s : System α ε σ} {id : Nat} {t : Task α ε} {w : PendingWrite α}

/-- With one operation under way, what is in hand is what it has in hand. -/
theorem inHand_iff (hlone : s.Lone id) (ht : s.task? id = some t) :
    s.InHand w ↔ w ∈ t.unwritten := by
  rw [inHand_iff_of_task? ht]
  refine or_iff_left ?_
  rintro ⟨k, t₁, hne, hk, hw⟩
  obtain ⟨hop, hdetached⟩ := hlone k t₁ hk hne
  rw [unwritten_of_not_isOperation hop hdetached] at hw
  exact absurd hw List.not_mem_nil

/-- With no operation under way, nothing is in hand. -/
theorem not_inHand_of_isResting (hrest : s.isResting = true)
    (hattached : ∀ k t₁, s.task? k = some t₁ → t₁.isDetached = false) : ¬ s.InHand w := by
  rintro ⟨k, t, hk, hw⟩
  rw [unwritten_of_not_isOperation (isResting_iff.mp hrest k t hk) (hattached k t hk)] at hw
  exact absurd hw List.not_mem_nil

end Lone

section Stir

variable [Payload α] [DurableStore σ]

/-- All that an event of a sequential run can do to the entries on their way to the store: what
    happens, what is written, and the system after it. -/
inductive Stir (s : System α ε σ) (ttl : UInt64) :
    Event α ε σ → List (Happening α ε) → Option (StoreWrite α) → System α ε σ → Prop where
  | keeps {ev more s'} (hwaiting : ∀ key, s'.waiting? key = s.waiting? key)
      (hhand : ∀ w, s'.InHand w ↔ s.InHand w) (hstore : s'.store = s.store)
      (hquiet : ∀ id cache e, .fetched id cache e ∉ more) : Stir s ttl ev more none s'
  | disturbs {change s'} (hwaiting : ∀ key, s'.waiting? key = s.waiting? key)
      (hhand : ∀ w, s'.InHand w ↔ s.InHand w) (hstore : s'.store = change s.store) :
      Stir s ttl (.disturb change) [] none s'
  | reads {clock outcome id s'} (key : String) (hwaiting : ∀ key, s'.waiting? key = s.waiting? key)
      (hhand : ∀ w, s'.InHand w ↔ s.InHand w)
      (hstore : s'.store = (DurableStore.get s.store clock key).2) :
      Stir s ttl (.step clock outcome id) [] none s'
  /-- An entry was fetched and waits, in the place of an older one of its key. -/
  | fetches {clock outcome id cache e s'}
      (hwaiting : ∀ key, s'.waiting? key =
        if e.key = key then some ⟨e, e.capturedAt⟩ else s.waiting? key)
      (hidle : ∀ w, ¬ s.InHand w) (hhand : ∀ w, s'.InHand w ↔ s.InHand w)
      (hstore : s'.store = s.store) :
      Stir s ttl (.step clock outcome id) [.fetched id cache e] none s'
  /-- All that waits is taken. -/
  | takes {clock outcome id cache s'} (hwaiting : ∀ key, s'.waiting? key = none)
      (hidle : ∀ w, ¬ s.InHand w) (hhand : ∀ w, s'.InHand w ↔ ∃ key, s.waiting? key = some w)
      (hstore : s'.store = s.store) : Stir s ttl (.step clock outcome id) [.took id cache] none s'
  /-- A write that was in hand is accepted by the store. -/
  | writes {clock outcome id w v s'} (henc : w.entry.encode? = some v)
      (hwaiting : ∀ key, s'.waiting? key = s.waiting? key)
      (hhand : ∀ w', s.InHand w' ↔ w' = w ∨ s'.InHand w')
      (hput : (DurableStore.put s.store clock w.key v ttl).1 = .accepted)
      (hstore : s'.store = (DurableStore.put s.store clock w.key v ttl).2) :
      Stir s ttl (.step clock outcome id) [.attempted id w]
        (some ⟨clock, w.entry, v, ttl, .accepted⟩) s'
  /-- A write that was in hand cannot be encoded. -/
  | discards {clock outcome id w s'} (henc : w.entry.encode? = none)
      (hwaiting : ∀ key, s'.waiting? key = s.waiting? key)
      (hhand : ∀ w', s.InHand w' ↔ w' = w ∨ s'.InHand w') (hstore : s'.store = s.store) :
      Stir s ttl (.step clock outcome id) [.attempted id w] none s'

variable {space : String} {settings : CacheSettings} {s s' : System α ε σ}
  {more : List (Happening α ε)} {ttl : UInt64} {ev : Event α ε σ} {x : Option (StoreWrite α)}

/-- Once nothing waits, nothing waits until something is fetched. -/
theorem Stir.waiting?_eq_none (h : Stir s ttl ev more x s')
    (hquiet : ∀ id cache e, .fetched id cache e ∉ more) (hnone : ∀ key, s.waiting? key = none)
    (key : String) : s'.waiting? key = none := by
  cases h with
  | keeps hwaiting => exact (hwaiting key).trans (hnone key)
  | disturbs hwaiting => exact (hwaiting key).trans (hnone key)
  | reads _ hwaiting => exact (hwaiting key).trans (hnone key)
  | fetches => exact absurd List.mem_cons_self (hquiet _ _ _)
  | takes hwaiting => exact hwaiting key
  | writes _ hwaiting => exact (hwaiting key).trans (hnone key)
  | discards _ hwaiting => exact (hwaiting key).trans (hnone key)

/-- In a sequential run nothing is in hand when something is fetched or taken. -/
theorem Flow.stir (h : Flow s ttl ev more x s') (hsolo : s.Solo space settings)
    (hinline : settings.backgroundFlush = false) : Stir s ttl ev more x s' := by
  have hidle : ∀ {id : Nat} {t : Task α ε}, s.task? id = some t → t.isOperation = true →
      t.unwritten = [] → ∀ w, ¬ s.InHand w := by
    intro id t ht hop hnone w hw
    rw [inHand_iff (hsolo.lone hinline ht hop) ht, hnone] at hw
    exact absurd hw List.not_mem_nil
  cases h with
  | keeps hwaiting hhand hstore hquiet => exact Stir.keeps hwaiting hhand hstore hquiet
  | disturbs hwaiting hhand hstore => exact Stir.disturbs hwaiting hhand hstore
  | reads key hwaiting hhand hstore => exact Stir.reads key hwaiting hhand hstore
  | fetches ht hop hnone hwaiting hhand hstore =>
    exact Stir.fetches hwaiting (hidle ht hop hnone) hhand hstore
  | takes ht hop hnone hwaiting hhand hstore =>
    refine Stir.takes hwaiting (hidle ht hop hnone) (fun w => ?_) hstore
    exact (hhand w).trans (or_iff_right (hidle ht hop hnone w))
  | writes henc hwaiting hin hhand hrest hput hstore =>
    refine Stir.writes henc hwaiting (fun w' => ⟨hhand w', ?_⟩) hput hstore
    rintro (rfl | hw)
    · exact hin
    · exact hrest w' hw
  | discards henc hwaiting hin hhand hrest hstore =>
    refine Stir.discards henc hwaiting (fun w' => ⟨hhand w', ?_⟩) hstore
    rintro (rfl | hw)
    · exact hin
    · exact hrest w' hw

/-- An event of a sequential run does one of these things, if the store accepts what is
    written. -/
theorem apply_stir (hadmits : s.admits ev = true) (hsolo : s.Solo space settings)
    (hinline : settings.backgroundFlush = false) (hnext : s.task? s.next = none)
    (haccepted : ∀ x, s.write? ev = some x → x.outcome = .accepted) :
    Stir s settings.durableTtlSecs ev (s.news ev) (s.write? ev) (s.apply ev) := by
  refine (apply_flow hsolo.zero (fun k c hc => (hsolo.setUp k c hc).ttl) hnext ?_ haccepted).stir
    hsolo hinline
  rintro id rfl
  cases hadmits

end Stir

end System

end MarketCache
