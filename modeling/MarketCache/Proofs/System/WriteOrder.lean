import MarketCache.Proofs.System.FinalFlush
import MarketCache.Proofs.System.Namespaces

/-!
# The order of writes

Passes of one cache may run at the same time, and nothing orders their writes: what the store holds
under a key in the end is the entry whose write took effect last, and this need not be the one that
was fetched last. It is so, and the writes of the key come in the order in which its entries were
fetched, unless a task takes an entry of the key while another one still has one in hand. With one
operation at a time that writes its passes itself this never happens.

Main definitions:
* `System.isSerial`: whether nothing of a key is taken while something of it is in hand.
* `System.Filed`: what waits, is in hand or was written, whatever the order.
* `System.InOrder`: the entries of a key that were written, are in hand or wait, in their order.

Results:
* `filed_run`, `inOrder_run`: the invariants of a run.
* `last_write_wins`: what the store holds after a flush at the end.
* `not_latest_overtaken`: it need not be the latest entry.
-/

namespace MarketCache

variable {α ε σ : Type}

/-- Whether a task took all that waited. -/
def Happening.isTook : Happening α ε → Bool
  | .took _ _ => true
  | _ => false

namespace System

/-! ## Passes that have the same key -/

/-- Whether some task has a write of a key in hand. -/
def isPutting (s : System α ε σ) (key : String) : Bool :=
  s.tasks.toList.any fun (_, t) => t.unwritten.any (·.key == key)

theorem isPutting_eq_false_iff {s : System α ε σ} {key : String} :
    s.isPutting key = false ↔ ∀ w, s.InHand w → w.key ≠ key := by
  unfold isPutting InHand task?
  simp only [List.any_eq_false, Prod.forall, Std.ExtTreeMap.mem_toList_iff_getElem?_eq_some,
    List.any_eq_true, beq_iff_eq]
  refine ⟨fun h w ⟨id, t, ht, hw⟩ hkey => h id t ht ⟨w, hw, hkey⟩,
    fun h id t ht ⟨w, hw, hkey⟩ => ?_⟩
  exact h w ⟨id, t, ht, hw⟩ hkey

section Runs

variable [Payload α] [DurableStore σ]

/-- Whether an event takes an entry of a key while a task still has one in hand. -/
def overlaps (s : System α ε σ) (key : String) (ev : Event α ε σ) : Bool :=
  (s.news ev).any Happening.isTook && (s.waiting? key).isSome && s.isPutting key

/-- Whether in the course of a run no entry of a key is taken while a task still has one in hand. -/
def isSerial (s : System α ε σ) (key : String) : List (Event α ε σ) → Bool
  | [] => true
  | ev :: events => !s.overlaps key ev && (s.apply ev).isSerial key events

theorem isSerial_append (s : System α ε σ) (key : String) (events more : List (Event α ε σ)) :
    s.isSerial key (events ++ more) =
      (s.isSerial key events && (s.run events).isSerial key more) := by
  induction events generalizing s with
  | nil => rfl
  | cons ev events ih =>
    rw [List.cons_append, isSerial, isSerial, ih, Bool.and_assoc]
    rfl

theorem isSerial_of_split {s : System α ε σ} {key : String}
    {events before after : List (Event α ε σ)} {ev : Event α ε σ}
    (h : s.isSerial key events = true) (hsplit : events = before ++ ev :: after) :
    s.isSerial key before = true ∧ (s.run before).overlaps key ev = false := by
  rw [hsplit, isSerial_append, isSerial, Bool.and_eq_true, Bool.and_eq_true,
    Bool.not_eq_true'] at h
  exact ⟨h.1, h.2.1⟩

/-- What is taken, while nothing overlaps, is of another key, or nothing of the key is in hand. -/
theorem idle_of_overlaps {s : System α ε σ} {key : String} {ev : Event α ε σ}
    (h : s.overlaps key ev = false) {id cache : Nat} (htook : .took id cache ∈ s.news ev) :
    s.waiting? key = none ∨ ∀ w, s.InHand w → w.key ≠ key := by
  have hany : (s.news ev).any Happening.isTook = true := List.any_eq_true.mpr ⟨_, htook, rfl⟩
  rw [overlaps, hany, Bool.true_and, Bool.and_eq_false_iff, isPutting_eq_false_iff] at h
  refine h.imp_left fun hnone => ?_
  rw [Option.isSome_eq_false_iff] at hnone
  exact Option.isNone_iff_eq_none.mp hnone

end Runs

/-! ## One task at a time has a key in hand -/

/-- Whether at most one task has a key in hand, and that once. -/
structure Sole (key : String) (s : System α ε σ) : Prop where
  nodup : ∀ id t, s.task? id = some t → (t.unwritten.map (·.key)).Nodup
  holder : ∀ id id' t t', s.task? id = some t → s.task? id' = some t' →
    key ∈ t.unwritten.map (·.key) → key ∈ t'.unwritten.map (·.key) → id = id'

section Sole

variable {s s' : System α ε σ} {key : String} {id : Nat} {t t' : Task α ε}

theorem Sole.congr (h : Sole key s) (htasks : ∀ k, s'.task? k = s.task? k) : Sole key s' where
  nodup k t hk := h.nodup k t (htasks k ▸ hk)
  holder k k' t t' hk hk' := h.holder k k' t t' (htasks k ▸ hk) (htasks k' ▸ hk')

theorem Sole.setTask (h : Sole key s) (hnodup : (t.unwritten.map (·.key)).Nodup)
    (hheld : key ∈ t.unwritten.map (·.key) → ∀ k t', s.task? k = some t' →
      key ∈ t'.unwritten.map (·.key) → k = id) : Sole key (s.setTask id t) := by
  have htasks : ∀ k t', (s.setTask id t).task? k = some t' → (k = id ∧ t' = t) ∨
      s.task? k = some t' := by
    intro k t' hk
    rw [task?_setTask] at hk
    split at hk
    · next heq => exact Or.inl ⟨heq.symm, (Option.some.inj hk).symm⟩
    · exact Or.inr hk
  refine ⟨fun k t' hk => ?_, fun k k' t₁ t₂ hk hk' hkey hkey' => ?_⟩
  · rcases htasks k t' hk with ⟨-, rfl⟩ | hold
    · exact hnodup
    · exact h.nodup k t' hold
  · rcases htasks k t₁ hk with ⟨rfl, rfl⟩ | hold <;>
      rcases htasks k' t₂ hk' with ⟨rfl, rfl⟩ | hold'
    · rfl
    · exact (hheld hkey k' t₂ hold' hkey').symm
    · exact hheld hkey' k t₁ hold hkey
    · exact h.holder k k' t₁ t₂ hold hold' hkey hkey'

/-- A task that goes on with some of what it has in hand. -/
theorem Sole.goOn (h : Sole key s) (ht : s.task? id = some t)
    (hsub : t'.unwritten.Sublist t.unwritten) : Sole key (s.setTask id t') := by
  have hkeys := hsub.map (·.key)
  exact h.setTask (hkeys.nodup (h.nodup id t ht)) fun hkey k t₁ hk hkey' =>
    h.holder k id t₁ t hk ht hkey' (hkeys.subset hkey)

/-- A task that ends has nothing in hand. -/
theorem Sole.endTask (h : Sole key s) (hnone : t.unwritten = []) : Sole key (s.setTask id t) := by
  refine h.setTask ?_ fun hkey => ?_
  · rw [hnone]
    exact List.nodup_nil
  · rw [hnone] at hkey
    exact absurd hkey List.not_mem_nil

/-- A task takes all that waits, nothing of the key being in hand. -/
theorem Sole.take (h : Sole key s) (hkeyed : s.Keyed) (hzero : ∀ k c, s.cache? k = some c → k = 0)
    {cache : Nat} {c : TieredCache α} (hc : s.cache? cache = some c)
    (hbatch : t'.unwritten = c.writeBack.batch)
    (hidle : s.waiting? key = none ∨ ∀ w, s.InHand w → w.key ≠ key) (now : Instant) :
    Sole key ((s.setCache cache (c.takeAll now).2).setTask id t') := by
  have hcongr : Sole key (s.setCache cache (c.takeAll now).2) := h.congr fun _ => rfl
  refine hcongr.setTask ?_ fun hkey k t₁ hk hkey' => ?_
  · rw [hbatch]
    exact WriteBack.nodup_keys_batch (hkeyed cache c hc)
  · rw [hbatch] at hkey
    obtain ⟨w, hw, rfl⟩ := List.mem_map.mp hkey
    obtain ⟨w', hw', hkey'⟩ := List.mem_map.mp hkey'
    rw [WriteBack.mem_batch_iff (hkeyed cache c hc)] at hw
    cases hzero cache c hc
    rcases hidle with hnone | hidle
    · rw [waiting?_eq hc] at hnone
      cases hnone.symm.trans hw
    · exact absurd hkey' (hidle w' ⟨k, t₁, hk, hw'⟩)

/-- A lookup hands its batch to a new pass. -/
theorem Sole.detach {s₂ : System α ε σ} {cache : Nat} {batch : List (PendingWrite α)}
    (h : Sole key s) (ht : s.task? id = some t) (hbatch : t.unwritten = batch)
    (hnext : s.task? s.next = none) (hnone : t'.unwritten = [])
    (htasks : ∀ k, s₂.task? k = (s.add (.pass cache (.ofBatch batch))).2.task? k) :
    Sole key (s₂.setTask id t') := by
  have hne : id ≠ s.next := by
    rintro rfl
    cases hnext.symm.trans ht
  have hover : Sole key (s.setTask id t') := h.endTask hnone
  have hpass : Sole key ((s.setTask id t').setTask s.next (.pass cache (.ofBatch batch))) := by
    refine hover.setTask (hbatch ▸ h.nodup id t ht) fun hkey k t₁ hk hkey' => ?_
    rw [task?_setTask] at hk
    split at hk
    · cases hk
      rw [hnone] at hkey'
      exact absurd hkey' List.not_mem_nil
    · next hid =>
      have hheld : key ∈ t.unwritten.map (·.key) := hbatch ▸ hkey
      exact absurd (h.holder id k t t₁ ht hk hheld hkey') hid
  refine hpass.congr fun k => ?_
  have hadd : (s.add (.pass cache (.ofBatch batch))).2.task? k =
      (s.setTask s.next (.pass cache (.ofBatch batch))).task? k := rfl
  rw [task?_setTask, htasks, hadd, task?_setTask, task?_setTask, task?_setTask]
  by_cases hid : id = k
  · rw [if_pos hid, if_neg (hid ▸ Ne.symm hne), if_pos hid]
  · rw [if_neg hid, if_neg hid]

variable [Payload α] [DurableStore σ] {clock : Instant} {more : List (Happening α ε)}

theorem Turn.sole (hturn : Turn s clock id t more s') (ht : s.task? id = some t)
    (h : Sole key s) (hkeyed : s.Keyed) (hzero : ∀ k c, s.cache? k = some c → k = 0)
    (hnext : s.task? s.next = none)
    (hidle : ∀ k cache, .took k cache ∈ more →
      s.waiting? key = none ∨ ∀ w, s.InHand w → w.key ≠ key) : Sole key s' := by
  have hgo : ∀ {s₁ : System α ε σ} {t' : Task α ε}, (∀ k, s₁.task? k = s.task? k) →
      t'.unwritten.Sublist t.unwritten → Sole key (s₁.setTask id t') :=
    fun htasks hsub => (h.congr htasks).goOn ((htasks id).trans ht) hsub
  cases hturn with
  | idle => exact h
  | @hand cache key' now answer c hc =>
    exact h.take hkeyed hzero hc rfl (hidle id cache List.mem_cons_self) now
  | @begin cache key' now answer c hc =>
    exact h.take hkeyed hzero hc rfl (hidle id cache List.mem_cons_self) now
  | @take _ now cache c hf hcache hc =>
    exact h.take hkeyed hzero hc (unwritten_withFlush hf _) (hidle id cache List.mem_cons_self) now
  | detach cache batch hc => exact h.detach ht rfl hnext rfl fun _ => rfl
  | write store hp hcache hc hw ha =>
    refine hgo (fun _ => rfl) ?_
    rw [unwritten_of_pass? hp, unwritten_of_pass? (pass?_withPass hp _)]
    exact List.sublist_cons_self _ _
  | wrote hp hcache hc =>
    refine hgo (fun _ => rfl) ?_
    rcases writer_cases hp with ⟨_, _, _, _, rfl⟩ | ⟨_, _, rfl⟩ | ⟨_, rfl⟩ | ⟨_, _, _, rfl⟩ <;>
      exact List.nil_sublist _
  | takeOver hf hcache hslot =>
    refine hgo (fun _ => rfl) ?_
    rw [unwritten_withFlush hf]
    exact List.nil_sublist _
  | wait hf =>
    refine hgo (fun _ => rfl) ?_
    rw [unwritten_withFlush hf]
    exact List.nil_sublist _
  | join hf hover =>
    refine hgo (fun _ => rfl) ?_
    rw [unwritten_withFlush hf]
    exact List.nil_sublist _
  | _ => exact hgo (fun _ => rfl) (List.nil_sublist _)

theorem Sole.apply (h : Sole key s) {ev : Event α ε σ} (hkeyed : s.Keyed)
    (hzero : ∀ k c, s.cache? k = some c → k = 0) (hnext : s.task? s.next = none)
    (hserial : s.overlaps key ev = false) : Sole key (s.apply ev) := by
  have hidle : ∀ k cache, .took k cache ∈ s.news ev →
      s.waiting? key = none ∨ ∀ w, s.InHand w → w.key ≠ key :=
    fun _ _ htook => idle_of_overlaps hserial htook
  have hadd : ∀ t : Task α ε, t.unwritten = [] → Sole key (s.add t).2 := fun t hnone => by
    have hset : Sole key (s.setTask s.next t) := h.endTask hnone
    exact hset.congr fun _ => rfl
  have hmove := apply_move s ev
  generalize s.news ev = more at hmove hidle
  generalize s.apply ev = s' at hmove ⊢
  cases hmove with
  | idle => exact h
  | lookup hc => exact hadd _ rfl
  | flush => exact hadd _ rfl
  | maintain => exact hadd _ rfl
  | invalidate hc => exact h.congr fun _ => rfl
  | step ht hturn => exact hturn.sole ht h hkeyed hzero hnext hidle
  | abort => exact abort_induction (P := Sole key) h (fun _ _ _ _ _ h => h.endTask rfl) _
  | disturb => exact h.congr fun _ => rfl

/-- When a write of the key has been attempted, none is in hand. -/
theorem Turn.idle_of_attempted (hturn : Turn s clock id t more s') (ht : s.task? id = some t)
    (h : Sole key s) {k : Nat} {w : PendingWrite α} (hw : .attempted k w ∈ more)
    (hkey : w.key = key) : ∀ w', s'.InHand w' → w'.key ≠ key := by
  cases hturn with
  | @write _ cache c v rest r a store hp hcache hc hattempt ha =>
    cases List.mem_singleton.mp hw
    have hunwritten : t.unwritten = w :: rest := unwritten_of_pass? hp
    have hnodup := h.nodup id t ht
    rw [hunwritten, List.map_cons, List.nodup_cons] at hnodup
    intro w' hw' hkey'
    rcases (inHand_setTask_iff (fun _ => rfl) _).mp hw' with hw' | ⟨k, t', hne, hk, hw'⟩
    · rw [unwritten_of_pass? (pass?_withPass hp _)] at hw'
      refine hnodup.1 ?_
      rw [hkey, ← hkey']
      exact List.mem_map_of_mem hw'
    · refine hne (h.holder k id t' t hk ht ?_ ?_)
      · rw [← hkey']
        exact List.mem_map_of_mem hw'
      · rw [hunwritten, ← hkey]
        exact List.mem_map_of_mem List.mem_cons_self
  | wrote hp hcache hc =>
    split at hw
    · simp at hw
    · simp at hw
  | _ => simp at hw

theorem apply_idle_of_attempted (h : Sole key s) {ev : Event α ε σ} {k : Nat} {w : PendingWrite α}
    (hw : .attempted k w ∈ s.news ev) (hkey : w.key = key) :
    ∀ w', (s.apply ev).InHand w' → w'.key ≠ key := by
  have hmove := apply_move s ev
  generalize s.news ev = more at hmove hw
  generalize s.apply ev = s' at hmove ⊢
  cases hmove with
  | step ht hturn => exact hturn.idle_of_attempted ht h hw hkey
  | lookup hc => simp at hw
  | _ => exact absurd hw List.not_mem_nil

end Sole

/-! ## What was fetched is put, and what was put last is held -/

section Filed

variable [Payload α] [DurableStore σ] [LastingStore σ]

/-- Whether a write is of the encoding of its entry, and the store still holds it under a key if
    it is safe at an instant. -/
structure Held (ttl : UInt64) (last : Instant) (store : σ) (key : String) (x : StoreWrite α) :
    Prop where
  reading : x.clock.IsReading
  encoded : x.entry.encode? = some x.bytes
  held : x.clock.Outlasts ttl last → LastingStore.Holds store key x.bytes x.clock ttl

/-- Whether what waits is the latest of its key, the latest entry of every key waits, is in hand or
    was put, unless it cannot be encoded, and the store holds what was put last under a key of the
    namespace. -/
structure Filed (space : String) (ttl : UInt64) (last : Instant) (s : System α ε σ)
    (log : List (Happening α ε)) (writes : List (StoreWrite α)) : Prop where
  waiting : ∀ key w, s.waiting? key = some w → latest log key = some w.entry
  put : ∀ key e v, latest log key = some e → e.encode? = some v →
    (∃ w, s.waiting? key = some w) ∨ (∃ w, s.InHand w ∧ w.entry = e) ∨ ∃ x ∈ writes, x.entry = e
  held : ∀ key x, InSpace space key → lastWrite writes key = some x →
    Held ttl last s.store key x

variable {space : String} {ttl : UInt64} {last : Instant} {s s' : System α ε σ}
  {log more : List (Happening α ε)} {writes writes' : List (StoreWrite α)} {ev : Event α ε σ}
  {x : Option (StoreWrite α)}

theorem Held.mono {store store' : σ} {key : String} {x : StoreWrite α}
    (h : Held ttl last store key x)
    (hkept : x.clock.IsReading → x.clock.Outlasts ttl last →
      LastingStore.Holds store key x.bytes x.clock ttl →
      LastingStore.Holds store' key x.bytes x.clock ttl) : Held ttl last store' key x :=
  ⟨h.reading, h.encoded, fun hsafe => hkept h.reading hsafe (h.held hsafe)⟩

/-- What waits stays as it is, and what is in hand stays so, or was put or cannot be encoded. -/
theorem Filed.extend (h : s.Filed space ttl last log writes)
    (hquiet : ∀ id cache e, .fetched id cache e ∉ more)
    (hwaiting : ∀ key, s'.waiting? key = s.waiting? key)
    (hhand : ∀ w, s.InHand w →
      s'.InHand w ∨ w.entry.encode? = none ∨ ∃ x ∈ writes', x.entry = w.entry)
    (hwrites : ∀ x ∈ writes, x ∈ writes')
    (hheld : ∀ key x, InSpace space key → lastWrite writes' key = some x →
      Held ttl last s'.store key x) : s'.Filed space ttl last (log ++ more) writes' where
  waiting key w hw := by
    rw [latest_append_of_not_fetched hquiet]
    exact h.waiting key w (hwaiting key ▸ hw)
  put key e v he hv := by
    rw [latest_append_of_not_fetched hquiet] at he
    rcases h.put key e v he hv with ⟨w, hw⟩ | ⟨w, hw, rfl⟩ | ⟨x, hx, hentry⟩
    · exact Or.inl ⟨w, (hwaiting key).trans hw⟩
    · rcases hhand w hw with hstill | hnone | hput
      · exact Or.inr (Or.inl ⟨w, hstill, rfl⟩)
      · cases hnone.symm.trans hv
      · exact Or.inr (Or.inr hput)
    · exact Or.inr (Or.inr ⟨x, hwrites x hx, hentry⟩)
  held := hheld

/-- Every event keeps the invariant, as long as the clock shows no more than at the end and other
    users of the store spare the namespace. -/
theorem Filed.flow (h : s.Filed space ttl last log writes) (hflow : Flow s ttl ev more x s')
    (hlast : last.IsReading) (hclock : ∀ t, ev.clock? = some t → t.IsReading ∧ t ≤ last)
    (hspares : ∀ change, ev = .disturb change → Spares space ttl last change) :
    s'.Filed space ttl last (log ++ more) (writes ++ x.toList) := by
  cases hflow with
  | keeps hwaiting hhand hstore hquiet =>
    rw [Option.toList_none, List.append_nil writes]
    refine h.extend hquiet hwaiting (fun w hw => Or.inl ((hhand w).mpr hw)) (fun _ hx => hx) ?_
    rw [hstore]
    exact h.held
  | @disturbs change _ hwaiting hhand hstore =>
    rw [Option.toList_none, List.append_nil writes]
    refine h.extend (by simp) hwaiting (fun w hw => Or.inl ((hhand w).mpr hw)) (fun _ hx => hx)
      fun key x hkey hx => (h.held key x hkey hx).mono fun hreading hsafe hheld => ?_
    obtain ⟨q, rfl⟩ := hkey
    rw [hstore]
    exact hspares change rfl s.store q x.bytes x.clock hreading hsafe hheld
  | @reads clock _ _ _ key hwaiting hhand hstore =>
    obtain ⟨hreading, hle⟩ := hclock clock rfl
    rw [Option.toList_none, List.append_nil writes]
    refine h.extend (by simp) hwaiting (fun w hw => Or.inl ((hhand w).mpr hw)) (fun _ hx => hx)
      fun key x hkey hx => (h.held key x hkey hx).mono fun hput hsafe hheld => ?_
    rw [hstore]
    exact LastingStore.holds_get hput hreading (hsafe.mono hle hreading.2 hlast.2) hheld
  | @fetches _ _ id t cache e _ ht hop hnone hwaiting hhand hstore =>
    rw [Option.toList_none, List.append_nil writes]
    refine ⟨fun key w hw => ?_, fun key e' v he hv => ?_, hstore ▸ h.held⟩
    · rw [hwaiting] at hw
      rw [latest_concat_fetched]
      split at hw
      · next hkey =>
        cases hw
        rw [if_pos hkey]
      · next hkey =>
        rw [if_neg hkey]
        exact h.waiting key w hw
    · rw [latest_concat_fetched] at he
      rw [hwaiting]
      split at he
      · next hkey => exact Or.inl ⟨_, if_pos hkey⟩
      · next hkey =>
        rw [if_neg hkey]
        refine (h.put key e' v he hv).imp_right fun hput => hput.imp_left ?_
        exact fun ⟨w, hw, hentry⟩ => ⟨w, (hhand w).mpr hw, hentry⟩
  | @takes _ _ id t cache _ ht hop hnone hwaiting hhand hstore =>
    rw [Option.toList_none, List.append_nil writes]
    refine ⟨fun key w hw => ?_, fun key e v he hv => ?_, hstore ▸ h.held⟩
    · cases (hwaiting key).symm.trans hw
    · rw [latest_append_of_not_fetched (by simp)] at he
      rcases h.put key e v he hv with ⟨w, hw⟩ | ⟨w, hw, hentry⟩ | hput
      · refine Or.inr (Or.inl ⟨w, (hhand w).mpr (Or.inr ⟨key, hw⟩), ?_⟩)
        exact Option.some.inj ((h.waiting key w hw).symm.trans he)
      · exact Or.inr (Or.inl ⟨w, (hhand w).mpr (Or.inl hw), hentry⟩)
      · exact Or.inr (Or.inr hput)
  | @writes clock _ id w v _ henc hwaiting hin hhand hrest hput hstore =>
    obtain ⟨hreading, -⟩ := hclock clock rfl
    refine h.extend (by simp) hwaiting (fun w' hw' => ?_)
      (fun _ hx => List.mem_append_left _ hx) fun key x hkey hx => ?_
    · rcases hhand w' hw' with rfl | hstill
      · exact Or.inr (Or.inr ⟨_, List.mem_append_right _ List.mem_cons_self, rfl⟩)
      · exact Or.inl hstill
    · rw [Option.toList_some, lastWrite_concat] at hx
      rw [hstore]
      split at hx
      · next heq =>
        cases hx
        have hkey' : w.key = key := heq
        rw [← hkey']
        exact ⟨hreading, henc, fun _ => LastingStore.holds_put hput⟩
      · next hne =>
        exact (h.held key x hkey hx).mono fun _ _ hheld => LastingStore.holds_put_of_ne hne hheld
  | @discards _ _ id w _ henc hwaiting hin hhand hrest hstore =>
    rw [Option.toList_none, List.append_nil writes]
    refine h.extend (by simp) hwaiting (fun w' hw' => ?_) (fun _ hx => hx) (hstore ▸ h.held)
    rcases hhand w' hw' with rfl | hstill
    · exact Or.inr (Or.inl henc)
    · exact Or.inl hstill

end Filed

/-! ## The entries of a key in their order -/

/-- The entries of a key that were put, the oldest first. -/
def putsOf (writes : List (StoreWrite α)) (key : String) : List (Entry α) :=
  (writes.filter (·.entry.key = key)).map (·.entry)

/-- The entries of a key that were fetched, the oldest first. -/
def fetchesOf (log : List (Happening α ε)) (key : String) : List (Entry α) :=
  log.filterMap (·.fetched? key)

/-- The entries of a key that were put, then one that is in hand, then one that waits. -/
def chain (s : System α ε σ) (writes : List (StoreWrite α)) (key : String)
    (hand : Option (Entry α)) : List (Entry α) :=
  putsOf writes key ++ hand.toList ++ ((s.waiting? key).map (·.entry)).toList

/-- Whether at most one entry of a key is in hand, and the entries that were put, are in hand or
    wait are in the order in which they were fetched. -/
def InOrder (key : String) (s : System α ε σ) (log : List (Happening α ε))
    (writes : List (StoreWrite α)) : Prop :=
  ∃ hand : Option (Entry α), (∀ e, hand = some e ↔ ∃ w, s.InHand w ∧ w.key = key ∧ w.entry = e) ∧
    (s.chain writes key hand).Sublist (fetchesOf log key)

section InOrder

variable {s s' : System α ε σ} {key : String} {log log' more : List (Happening α ε)}
  {writes writes' : List (StoreWrite α)}

theorem fetchesOf_append_of_not_fetched (h : ∀ id cache e, .fetched id cache e ∉ more) :
    fetchesOf (log ++ more) key = fetchesOf log key := by
  rw [fetchesOf, List.filterMap_append, filterMap_fetched?_eq_nil h, List.append_nil]
  rfl

theorem fetchesOf_concat_fetched (log : List (Happening α ε)) (id cache : Nat) (e : Entry α)
    (key : String) : fetchesOf (log ++ [.fetched id cache e]) key =
      fetchesOf log key ++ if e.key = key then [e] else [] := by
  rw [fetchesOf, List.filterMap_append]
  by_cases hkey : e.key = key
  · simp [fetchesOf, Happening.fetched?, hkey]
  · simp [fetchesOf, Happening.fetched?, hkey]

theorem exists_lastWrite {x : StoreWrite α} (hx : x ∈ writes) (hkey : x.entry.key = key) :
    ∃ y, lastWrite writes key = some y := by
  have hmem : x ∈ writes.filter (·.entry.key = key) :=
    List.mem_filter.mpr ⟨hx, decide_eq_true hkey⟩
  rcases hnone : lastWrite writes key with _ | y
  · rw [lastWrite, List.getLast?_eq_none_iff] at hnone
    rw [hnone] at hmem
    exact absurd hmem List.not_mem_nil
  · exact ⟨y, rfl⟩

theorem mem_of_lastWrite {x : StoreWrite α} (h : lastWrite writes key = some x) : x ∈ writes :=
  (List.mem_filter.mp (List.mem_of_getLast? h)).1

theorem putsOf_concat (writes : List (StoreWrite α)) (x : StoreWrite α) (key : String) :
    putsOf (writes ++ [x]) key =
      putsOf writes key ++ if x.entry.key = key then [x.entry] else [] := by
  rw [putsOf, List.filter_append, List.map_append]
  by_cases hkey : x.entry.key = key
  · simp [putsOf, hkey]
  · simp [putsOf, hkey]

/-- What waits for a key is of that key. -/
theorem key_of_waiting? (h : s.Keyed) {w : PendingWrite α} (hw : s.waiting? key = some w) :
    w.key = key := by
  obtain ⟨c, hc, hpending⟩ := Option.bind_eq_some_iff.mp hw
  exact h 0 c hc key w hpending

/-- What waits and is of a key waits for that key. -/
theorem waiting?_of_key (h : s.Keyed) {key' : String} {w : PendingWrite α}
    (hw : s.waiting? key' = some w) (hkey : w.key = key) : s.waiting? key = some w := by
  rw [← hkey, key_of_waiting? h hw]
  exact hw

/-- What is in hand of a key after a write of another key has been attempted. -/
theorem inHand_iff_of_others {w : PendingWrite α} (hne : w.key ≠ key)
    (hhand : ∀ w', s.InHand w' → w' = w ∨ s'.InHand w') (hrest : ∀ w', s'.InHand w' → s.InHand w')
    (w' : PendingWrite α) (hkey : w'.key = key) : s'.InHand w' ↔ s.InHand w' := by
  refine ⟨hrest w', fun hw' => ?_⟩
  rcases hhand w' hw' with rfl | hstill
  · exact absurd hkey hne
  · exact hstill

/-- Nothing changes for the key. -/
theorem InOrder.congr (h : InOrder key s log writes) (hwaiting : s'.waiting? key = s.waiting? key)
    (hhand : ∀ w, w.key = key → (s'.InHand w ↔ s.InHand w))
    (hputs : putsOf writes' key = putsOf writes key)
    (hfetches : fetchesOf log' key = fetchesOf log key) : InOrder key s' log' writes' := by
  obtain ⟨hand, hiff, hsub⟩ := h
  refine ⟨hand, fun e => (hiff e).trans (exists_congr fun w => ?_), ?_⟩
  · exact ⟨fun ⟨hw, hkey, he⟩ => ⟨(hhand w hkey).mpr hw, hkey, he⟩,
      fun ⟨hw, hkey, he⟩ => ⟨(hhand w hkey).mp hw, hkey, he⟩⟩
  · rw [chain, hwaiting, hputs, hfetches]
    exact hsub

/-- An entry of the key was fetched and waits. -/
theorem InOrder.fetch (h : InOrder key s log writes) {id cache : Nat} {e : Entry α}
    (hkey : e.key = key) (hwaiting : (s'.waiting? key).map (·.entry) = some e)
    (hhand : ∀ w, s'.InHand w ↔ s.InHand w) :
    InOrder key s' (log ++ [.fetched id cache e]) writes := by
  obtain ⟨hand, hiff, hsub⟩ := h
  refine ⟨hand, fun e' => (hiff e').trans ?_, ?_⟩
  · exact exists_congr fun w => and_congr_left' (hhand w).symm
  · rw [fetchesOf_concat_fetched, if_pos hkey, chain, hwaiting]
    exact ((List.sublist_append_left _ _).trans hsub).append (List.Sublist.refl _)

/-- All that waits is taken, nothing of the key being in hand if something of it waits. -/
theorem InOrder.take (h : InOrder key s log writes) (hkeyed : s.Keyed)
    (hquiet : ∀ id cache e, .fetched id cache e ∉ more)
    (hidle : s.waiting? key = none ∨ ∀ w, s.InHand w → w.key ≠ key)
    (hwaiting : ∀ key, s'.waiting? key = none)
    (hhand : ∀ w, s'.InHand w ↔ s.InHand w ∨ ∃ key, s.waiting? key = some w) :
    InOrder key s' (log ++ more) writes := by
  rcases hwait : s.waiting? key with _ | w
  · refine h.congr ((hwaiting key).trans hwait.symm) (fun w hkey => ?_) rfl
      (fetchesOf_append_of_not_fetched hquiet)
    refine (hhand w).trans (or_iff_left ?_)
    rintro ⟨key', hw⟩
    cases hwait.symm.trans (waiting?_of_key hkeyed hw hkey)
  · obtain ⟨hand, hiff, hsub⟩ := h
    have hfree : ∀ w, s.InHand w → w.key ≠ key := by
      rcases hidle with hnone | hfree
      · cases hnone.symm.trans hwait
      · exact hfree
    have hnone : hand = none := by
      rcases hand with _ | e
      · rfl
      · obtain ⟨w', hw', hkey, -⟩ := (hiff e).mp rfl
        exact absurd hkey (hfree w' hw')
    refine ⟨some w.entry, fun e => ⟨fun heq => ?_, ?_⟩, ?_⟩
    · exact ⟨w, (hhand w).mpr (Or.inr ⟨key, hwait⟩), key_of_waiting? hkeyed hwait,
        Option.some.inj heq⟩
    · rintro ⟨w', hw', hkey, rfl⟩
      rcases (hhand w').mp hw' with hw' | ⟨key', hw'⟩
      · exact absurd hkey (hfree w' hw')
      · cases hwait.symm.trans (waiting?_of_key hkeyed hw' hkey)
        rfl
    · have hchain : s'.chain writes key (some w.entry) = s.chain writes key hand := by
        rw [chain, chain, hwaiting, hwait, hnone]
        simp
      rw [hchain, fetchesOf_append_of_not_fetched hquiet]
      exact hsub

/-- A write of the key that was in hand is put, or its entry cannot be encoded. -/
theorem InOrder.attempt (h : InOrder key s log writes) {w : PendingWrite α}
    (hquiet : ∀ id cache e, .fetched id cache e ∉ more) (hin : s.InHand w) (hkey : w.key = key)
    (hwaiting : s'.waiting? key = s.waiting? key) (hafter : ∀ w', s'.InHand w' → w'.key ≠ key)
    (hputs : (putsOf writes' key).Sublist (putsOf writes key ++ [w.entry])) :
    InOrder key s' (log ++ more) writes' := by
  obtain ⟨hand, hiff, hsub⟩ := h
  have hhand : hand = some w.entry := (hiff w.entry).mpr ⟨w, hin, hkey, rfl⟩
  refine ⟨none, fun e => iff_of_false (by simp) ?_, ?_⟩
  · rintro ⟨w', hw', hkey', -⟩
    exact hafter w' hw' hkey'
  · rw [fetchesOf_append_of_not_fetched hquiet, chain, hwaiting, Option.toList_none,
      List.append_nil]
    rw [chain, hhand] at hsub
    exact (hputs.append (List.Sublist.refl _)).trans hsub

variable [Payload α] [DurableStore σ] {ttl : UInt64} {ev : Event α ε σ} {x : Option (StoreWrite α)}

/-- Every event keeps the order of a key, as long as nothing of it is taken while something of it
    is in hand, and nothing of it is in hand any more when a write of it has been attempted. -/
theorem InOrder.flow (h : InOrder key s log writes) (hflow : Flow s ttl ev more x s')
    (hkeyed : s.Keyed)
    (hidle : ∀ k cache, .took k cache ∈ more →
      s.waiting? key = none ∨ ∀ w, s.InHand w → w.key ≠ key)
    (hafter : ∀ k w, .attempted k w ∈ more → w.key = key → ∀ w', s'.InHand w' → w'.key ≠ key) :
    InOrder key s' (log ++ more) (writes ++ x.toList) := by
  cases hflow with
  | keeps hwaiting hhand hstore hquiet =>
    rw [Option.toList_none, List.append_nil writes]
    exact h.congr (hwaiting key) (fun w _ => hhand w) rfl (fetchesOf_append_of_not_fetched hquiet)
  | disturbs hwaiting hhand hstore =>
    rw [Option.toList_none, List.append_nil writes]
    exact h.congr (hwaiting key) (fun w _ => hhand w) rfl
      (fetchesOf_append_of_not_fetched (by simp))
  | reads _ hwaiting hhand hstore =>
    rw [Option.toList_none, List.append_nil writes]
    exact h.congr (hwaiting key) (fun w _ => hhand w) rfl
      (fetchesOf_append_of_not_fetched (by simp))
  | @fetches _ _ id t cache e _ ht hop hnone hwaiting hhand hstore =>
    rw [Option.toList_none, List.append_nil writes]
    by_cases hkey : e.key = key
    · refine h.fetch hkey ?_ hhand
      rw [hwaiting, if_pos hkey]
      rfl
    · refine h.congr ((hwaiting key).trans (if_neg hkey)) (fun w _ => hhand w) rfl ?_
      rw [fetchesOf_concat_fetched, if_neg hkey, List.append_nil]
  | @takes _ _ id t cache _ ht hop hnone hwaiting hhand hstore =>
    rw [Option.toList_none, List.append_nil writes]
    exact h.take hkeyed (by simp) (hidle id cache List.mem_cons_self) hwaiting hhand
  | @writes clock _ id w v _ henc hwaiting hin hhand hrest hput hstore =>
    by_cases hkey : w.key = key
    · refine h.attempt (by simp) hin hkey (hwaiting key) (hafter id w List.mem_cons_self hkey) ?_
      rw [Option.toList_some, putsOf_concat, if_pos hkey]
    · refine h.congr (hwaiting key) (inHand_iff_of_others hkey hhand hrest) ?_
        (fetchesOf_append_of_not_fetched (by simp))
      rw [Option.toList_some, putsOf_concat, if_neg hkey, List.append_nil]
  | @discards _ _ id w _ henc hwaiting hin hhand hrest hstore =>
    rw [Option.toList_none, List.append_nil writes]
    by_cases hkey : w.key = key
    · exact h.attempt (by simp) hin hkey (hwaiting key) (hafter id w List.mem_cons_self hkey)
        (List.sublist_append_left _ _)
    · exact h.congr (hwaiting key) (inHand_iff_of_others hkey hhand hrest) rfl
        (fetchesOf_append_of_not_fetched (by simp))

end InOrder

/-! ## The latest entry of a key -/

/-- Whether all of a key that waits, or that is in hand or was put last when nothing waits, is of an
    entry. -/
structure Newest (key : String) (e : Entry α) (s : System α ε σ) (writes : List (StoreWrite α)) :
    Prop where
  waiting : ∀ w, s.waiting? key = some w → w.entry = e
  inHand : s.waiting? key = none → ∀ w, s.InHand w → w.key = key → w.entry = e
  put : s.waiting? key = none → (∀ w, s.InHand w → w.key ≠ key) →
    ∀ x, lastWrite writes key = some x → x.entry = e

section Newest

variable {s s' : System α ε σ} {key : String} {e : Entry α} {more : List (Happening α ε)}
  {writes writes' : List (StoreWrite α)}

/-- What waits for a key is the newest of it. -/
theorem newest_of_waiting {w : PendingWrite α} (hw : s.waiting? key = some w) :
    Newest key w.entry s writes where
  waiting w' hw' := by
    cases hw.symm.trans hw'
    rfl
  inHand hnone := by cases hnone.symm.trans hw
  put hnone := by cases hnone.symm.trans hw

/-- Nothing changes for the key. -/
theorem Newest.congr (h : Newest key e s writes) (hwaiting : s'.waiting? key = s.waiting? key)
    (hhand : ∀ w, w.key = key → (s'.InHand w ↔ s.InHand w))
    (hlast : lastWrite writes' key = lastWrite writes key) : Newest key e s' writes' where
  waiting w hw := h.waiting w (hwaiting ▸ hw)
  inHand hnone w hw hkey := h.inHand (hwaiting ▸ hnone) w ((hhand w hkey).mp hw) hkey
  put hnone hfree x hx := by
    refine h.put (hwaiting ▸ hnone) (fun w hw hkey => ?_) x (hlast ▸ hx)
    exact hfree w ((hhand w hkey).mpr hw) hkey

/-- All that waits is taken, nothing of the key being in hand if something of it waits. -/
theorem Newest.take (h : Newest key e s writes) (hkeyed : s.Keyed)
    (hidle : s.waiting? key = none ∨ ∀ w, s.InHand w → w.key ≠ key)
    (hwaiting : ∀ key, s'.waiting? key = none)
    (hhand : ∀ w, s'.InHand w ↔ s.InHand w ∨ ∃ key, s.waiting? key = some w) :
    Newest key e s' writes := by
  rcases hwait : s.waiting? key with _ | w
  · refine h.congr ((hwaiting key).trans hwait.symm) (fun w hkey => ?_) rfl
    refine (hhand w).trans (or_iff_left ?_)
    rintro ⟨key', hw⟩
    cases hwait.symm.trans (waiting?_of_key hkeyed hw hkey)
  · have hfree : ∀ w, s.InHand w → w.key ≠ key := by
      rcases hidle with hnone | hfree
      · cases hnone.symm.trans hwait
      · exact hfree
    have htaken : s'.InHand w := (hhand w).mpr (Or.inr ⟨key, hwait⟩)
    refine ⟨fun w' hw' => ?_, fun _ w' hw' hkey => ?_, fun _ hnone => ?_⟩
    · cases (hwaiting key).symm.trans hw'
    · rcases (hhand w').mp hw' with hw' | ⟨key', hw'⟩
      · exact absurd hkey (hfree w' hw')
      · exact h.waiting w' (waiting?_of_key hkeyed hw' hkey)
    · exact absurd (key_of_waiting? hkeyed hwait) (hnone w htaken)

/-- A write that was in hand is put; it is the last one of its key. -/
theorem Newest.write (h : Newest key e s writes) {x : StoreWrite α} {w : PendingWrite α}
    (hin : s.InHand w) (hentry : x.entry = w.entry) (hkey : w.key = key)
    (hwaiting : s'.waiting? key = s.waiting? key) (hrest : ∀ w', s'.InHand w' → s.InHand w') :
    Newest key e s' (writes ++ [x]) where
  waiting w hw := h.waiting w (hwaiting ▸ hw)
  inHand hnone w' hw' := h.inHand (hwaiting ▸ hnone) w' (hrest w' hw')
  put hnone hfree y hy := by
    have hxkey : x.entry.key = key := by
      rw [hentry]
      exact hkey
    rw [lastWrite_concat, if_pos hxkey] at hy
    cases hy
    rw [hentry]
    exact h.inHand (hwaiting ▸ hnone) w hin hkey

/-- A write that was in hand cannot be encoded; it is none of the newest entry, if that can. -/
theorem Newest.discard [Payload α] (h : Newest key e s writes) {w : PendingWrite α} {v : Bytes}
    (hin : s.InHand w) (hkey : w.key = key) (hnone : w.entry.encode? = none)
    (henc : e.encode? = some v) (hwaiting : s'.waiting? key = s.waiting? key)
    (hrest : ∀ w', s'.InHand w' → s.InHand w') : Newest key e s' writes where
  waiting w hw := h.waiting w (hwaiting ▸ hw)
  inHand hempty w' hw' := h.inHand (hwaiting ▸ hempty) w' (hrest w' hw')
  put hempty _ _ _ := by
    have heq := h.inHand (hwaiting ▸ hempty) w hin hkey
    rw [heq, henc] at hnone
    cases hnone

variable [Payload α] [DurableStore σ] {ttl : UInt64} {ev : Event α ε σ} {x : Option (StoreWrite α)}
  {v : Bytes}

/-- Every event keeps the newest entry of a key, as long as none of the key is fetched and nothing
    of it is taken while something of it is in hand. -/
theorem Newest.flow (h : Newest key e s writes) (hflow : Flow s ttl ev more x s')
    (hkeyed : s.Keyed) (henc : e.encode? = some v) (hnofetch : fetchesOf more key = [])
    (hidle : ∀ k cache, .took k cache ∈ more →
      s.waiting? key = none ∨ ∀ w, s.InHand w → w.key ≠ key) :
    Newest key e s' (writes ++ x.toList) := by
  cases hflow with
  | keeps hwaiting hhand hstore hquiet =>
    rw [Option.toList_none, List.append_nil]
    exact h.congr (hwaiting key) (fun w _ => hhand w) rfl
  | disturbs hwaiting hhand hstore =>
    rw [Option.toList_none, List.append_nil]
    exact h.congr (hwaiting key) (fun w _ => hhand w) rfl
  | reads _ hwaiting hhand hstore =>
    rw [Option.toList_none, List.append_nil]
    exact h.congr (hwaiting key) (fun w _ => hhand w) rfl
  | @fetches _ _ id t cache e' _ ht hop hnone hwaiting hhand hstore =>
    have hkey : e'.key ≠ key := by
      intro hkey
      have hfetched := fetchesOf_concat_fetched (ε := ε) [] id cache e' key
      rw [List.nil_append, hnofetch, if_pos hkey] at hfetched
      simp at hfetched
    rw [Option.toList_none, List.append_nil]
    exact h.congr ((hwaiting key).trans (if_neg hkey)) (fun w _ => hhand w) rfl
  | @takes _ _ id t cache _ ht hop hnone hwaiting hhand hstore =>
    rw [Option.toList_none, List.append_nil]
    exact h.take hkeyed (hidle id cache List.mem_cons_self) hwaiting hhand
  | @writes clock _ id w v' _ henc' hwaiting hin hhand hrest hput hstore =>
    by_cases hkey : w.key = key
    · exact h.write hin rfl hkey (hwaiting key) hrest
    · refine h.congr (hwaiting key) (inHand_iff_of_others hkey hhand hrest) ?_
      rw [Option.toList_some, lastWrite_concat, if_neg hkey]
  | @discards _ _ id w _ henc' hwaiting hin hhand hrest hstore =>
    rw [Option.toList_none, List.append_nil]
    by_cases hkey : w.key = key
    · exact h.discard hin hkey henc' henc (hwaiting key) hrest
    · exact h.congr (hwaiting key) (inHand_iff_of_others hkey hhand hrest) rfl

end Newest

/-! ## Runs -/

section Runs

variable [Payload α] [DurableStore σ] {space : String} {settings : CacheSettings}
  {startedAt last : Instant} {store : σ} {s₀ : System α ε σ}
  {events before tail : List (Event α ε σ)} {key : String}

theorem eq_zero_of_single {k : Nat} {c : TieredCache α}
    (hc : ((single store space settings startedAt).run events).cache? k = some c) :
    k = 0 ∧ SetUp space settings c := by
  obtain ⟨space', settings', startedAt', hspec, hsetUp⟩ := (sited_run store _ events).caches k c hc
  cases k with
  | zero =>
    cases hspec
    exact ⟨rfl, hsetUp⟩
  | succ k => cases hspec

/-- What an event does to the entries on their way, whatever else goes on. -/
theorem flow_of_split (hstart : s₀ = single store space settings startedAt)
    (habort : ∀ id, .abort id ∉ events) (haccepted : ∀ x ∈ s₀.writes events, x.outcome = .accepted)
    {after : List (Event α ε σ)} {ev : Event α ε σ} (hsplit : events = before ++ ev :: after) :
    Flow (s₀.run before) settings.durableTtlSecs ev ((s₀.run before).news ev)
      ((s₀.run before).write? ev) ((s₀.run before).apply ev) := by
  subst hstart
  refine apply_flow (fun k c hc => (eq_zero_of_single hc).1)
    (fun k c hc => (eq_zero_of_single hc).2.ttl) (numbered_run store _ before).task?_next ?_
    fun x hx => haccepted x (mem_writes_of_split hsplit hx)
  rintro id rfl
  exact habort id (hsplit ▸ List.mem_append_right _ List.mem_cons_self)

theorem filed_single [LastingStore σ] {ttl : UInt64} :
    (single store space settings startedAt : System α ε σ).Filed space ttl last [] [] where
  waiting key w hw := by
    have hnone := WriteBack.pendingFor?_start (α := α) settings.flushIntervalSecs
      settings.durableTtlSecs startedAt key
    cases hnone.symm.trans hw
  put key e v he := by cases he
  held key x _ hx := by cases hx

/-- In the course of a run the latest entry of every key waits, is in hand or was put, and the
    store holds what was put last. -/
theorem filed_run [LastingStore σ] (hstart : s₀ = single store space settings startedAt)
    (habort : ∀ id, .abort id ∉ events) (haccepted : ∀ x ∈ s₀.writes events, x.outcome = .accepted)
    (hlast : last.IsReading) (hclocks : ∀ t ∈ clocks events, t.IsReading ∧ t ≤ last)
    (hown : ∀ change, .disturb change ∈ events → Spares space settings.durableTtlSecs last change)
    {part rest : List (Event α ε σ)} (hsplit : events = part ++ rest) :
    (s₀.run part).Filed space settings.durableTtlSecs last (s₀.history part) (s₀.writes part) := by
  subst hstart
  refine prefix_induction (P := fun part =>
    ((single store space settings startedAt).run part).Filed space settings.durableTtlSecs last
      ((single store space settings startedAt).history part)
      ((single store space settings startedAt).writes part)) filed_single
    fun part ev after hpart h => ?_
  have hwhole : events = part ++ ev :: (after ++ rest) := by
    rw [hsplit, hpart, List.append_assoc, List.cons_append]
  rw [run_concat, history_concat, writes_concat]
  refine h.flow (flow_of_split rfl habort haccepted hwhole) hlast
    (fun t ht => hclocks t (mem_clocks_of_split hwhole ht)) ?_
  rintro change rfl
  exact hown change (hwhole ▸ List.mem_append_right _ List.mem_cons_self)

omit [Payload α] [DurableStore σ] in
theorem sole_single : Sole key (single store space settings startedAt : System α ε σ) where
  nodup id t ht := by
    rw [task?_ofSpecs] at ht
    cases ht
  holder id id' t t' ht := by
    rw [task?_ofSpecs] at ht
    cases ht

omit [Payload α] [DurableStore σ] in
theorem inOrder_single :
    InOrder key (single store space settings startedAt : System α ε σ) [] [] := by
  refine ⟨none, fun e => iff_of_false (by simp) ?_, ?_⟩
  · rintro ⟨w, ⟨id, t, ht, -⟩, -⟩
    rw [task?_ofSpecs] at ht
    cases ht
  · have hnone : (single store space settings startedAt : System α ε σ).waiting? key = none :=
      WriteBack.pendingFor?_start settings.flushIntervalSecs settings.durableTtlSecs startedAt key
    rw [chain, hnone]
    exact List.Sublist.refl _

/-- In the course of a run in which the passes do not overlap in a key, its entries keep their
    order. -/
theorem inOrder_run (hstart : s₀ = single store space settings startedAt)
    (habort : ∀ id, .abort id ∉ events) (haccepted : ∀ x ∈ s₀.writes events, x.outcome = .accepted)
    (hserial : s₀.isSerial key events = true) :
    InOrder key (s₀.run events) (s₀.history events) (s₀.writes events) := by
  subst hstart
  suffices hboth : Sole key ((single store space settings startedAt).run events) ∧
      InOrder key ((single store space settings startedAt).run events)
        ((single store space settings startedAt).history events)
        ((single store space settings startedAt).writes events) from hboth.2
  refine prefix_induction (P := fun part =>
    Sole key ((single store space settings startedAt).run part) ∧
      InOrder key ((single store space settings startedAt).run part)
        ((single store space settings startedAt).history part)
        ((single store space settings startedAt).writes part)) ⟨sole_single, inOrder_single⟩
    fun part ev after hsplit ⟨hsole, h⟩ => ?_
  have hapart := (isSerial_of_split hserial hsplit).2
  have hkeyed := keyed_run store [(space, settings, startedAt)] part
  rw [run_concat, history_concat, writes_concat]
  refine ⟨hsole.apply hkeyed (fun k c hc => (eq_zero_of_single hc).1)
    (numbered_run store _ part).task?_next hapart, ?_⟩
  exact h.flow (flow_of_split rfl habort haccepted hsplit) hkeyed
    (fun k cache htook => idle_of_overlaps hapart htook)
    fun k w hw hkey => apply_idle_of_attempted hsole hw hkey

/-- A task that takes all that waits is an operation with nothing in hand; a flush then is at its
    stage for that. -/
theorem Turn.free_of_took {s s' : System α ε σ} {clock : Instant} {id : Nat} {t : Task α ε}
    {more : List (Happening α ε)} (hturn : Turn s clock id t more s') {k cache : Nat}
    (h : .took k cache ∈ more) : t.isOperation = true ∧ t.unwritten = [] ∧
      ∀ cache now stage, t = .flush cache now stage → stage = .taking := by
  cases hturn with
  | hand hc => exact ⟨rfl, rfl, fun _ _ _ heq => by cases heq⟩
  | begin hc => exact ⟨rfl, rfl, fun _ _ _ heq => by cases heq⟩
  | take hf hcache hc =>
    refine ⟨isOperation_of_flushing? hf, unwritten_of_flushing? hf, fun _ _ _ heq => ?_⟩
    rcases flusher_cases hf with ⟨_, rfl⟩ | ⟨_, _, rfl⟩
    · cases heq
      rfl
    · cases heq
  | wrote hp hcache hc =>
    split at h
    · simp at h
    · simp at h
  | _ => simp at h

/-- One operation at a time that writes its passes itself never takes anything while something is
    in hand. -/
theorem isSerial_of_isSequential (hstart : s₀ = single store space settings startedAt)
    (hinline : settings.backgroundFlush = false) (hseq : s₀.isSequential events = true)
    (key : String) : s₀.isSerial key events = true := by
  subst hstart
  refine prefix_induction (P := fun part =>
    (single store space settings startedAt).isSerial key part = true) rfl
    fun part ev after hsplit h => ?_
  rw [isSerial_append, h, Bool.true_and, isSerial, isSerial, Bool.and_true, Bool.not_eq_true']
  have hsolo := solo_run (isSequential_of_split hseq hsplit)
  have hadvance := apply_advance (admits_of_split hseq hsplit)
  rw [overlaps]
  by_cases htook : (((single store space settings startedAt).run part).news ev).any
      Happening.isTook = true
  swap
  · rw [Bool.not_eq_true] at htook
    rw [htook]
    rfl
  obtain ⟨x, hx, hxtook⟩ := List.any_eq_true.mp htook
  have hidle : ((single store space settings startedAt).run part).isPutting key = false := by
    rw [isPutting_eq_false_iff]
    intro w hw
    generalize ((single store space settings startedAt).run part).news ev = more at hadvance hx
    generalize ((single store space settings startedAt).run part).apply ev = s' at hadvance
    cases x with
    | took k cache =>
      cases hadvance with
      | @step clock outcome id t _ _ ht hturn hreason =>
        obtain ⟨hop, hnone, -⟩ := hturn.free_of_took hx
        rw [inHand_iff (hsolo.lone hinline ht hop) ht, hnone] at hw
        exact absurd hw List.not_mem_nil
      | lookup hc hrest => simp at hx
      | _ => exact absurd hx List.not_mem_nil
    | _ => cases hxtook
  rw [hidle, Bool.and_false]

/-- Whether after a moment at which an entry of a key waits no other is fetched, and nothing of the
    key is taken while something of it is in hand. -/
def Clears (s₀ : System α ε σ) (events : List (Event α ε σ)) (key : String) : Prop :=
  ∃ part rest, events = part ++ rest ∧ ((s₀.run part).waiting? key).isSome = true ∧
    fetchesOf ((s₀.run part).history rest) key = [] ∧ (s₀.run part).isSerial key rest = true

/-- From the moment on, all of the key is of that entry. -/
theorem newest_run (hstart : s₀ = single store space settings startedAt)
    (habort : ∀ id, .abort id ∉ events) (haccepted : ∀ x ∈ s₀.writes events, x.outcome = .accepted)
    {part rest : List (Event α ε σ)} (hsplit : events = part ++ rest) {w : PendingWrite α}
    (hwait : (s₀.run part).waiting? key = some w) {v : Bytes} (henc : w.entry.encode? = some v)
    (hnofetch : fetchesOf ((s₀.run part).history rest) key = [])
    (hserial : (s₀.run part).isSerial key rest = true) :
    Newest key w.entry (s₀.run events) (s₀.writes events) := by
  subst hsplit
  have hrest := prefix_induction (l := rest) (P := fun later =>
    Newest key w.entry (s₀.run (part ++ later)) (s₀.writes (part ++ later))) ?_
    fun later ev after hsplit h => ?_
  · exact hrest
  · rw [List.append_nil]
    exact newest_of_waiting hwait
  have hwhole : part ++ rest = (part ++ later) ++ ev :: after := by
    rw [hsplit, List.append_assoc]
  have hapart := (isSerial_of_split hserial hsplit).2
  rw [← run_append] at hapart
  have hquiet : fetchesOf ((s₀.run (part ++ later)).news ev) key = [] := by
    rw [hsplit, history_append, fetchesOf, List.filterMap_append] at hnofetch
    have hlater := (List.append_eq_nil_iff.mp hnofetch).2
    rw [history, List.filterMap_append, ← run_append] at hlater
    exact (List.append_eq_nil_iff.mp hlater).1
  rw [← List.append_assoc, run_concat, writes_concat]
  refine h.flow (flow_of_split hstart habort haccepted hwhole) ?_ henc hquiet
    fun k cache htook => idle_of_overlaps hapart htook
  subst hstart
  exact keyed_run store _ _

/-- If nothing of a key is ever taken while something of it is in hand, its latest entry waits at
    some moment after which none is fetched. -/
theorem clears_of_isSerial (hstart : s₀ = single store space settings startedAt)
    (habort : ∀ id, .abort id ∉ events) (haccepted : ∀ x ∈ s₀.writes events, x.outcome = .accepted)
    (hserial : s₀.isSerial key events = true) {e : Entry α}
    (hlatest : latest (s₀.history events) key = some e) : s₀.Clears events key := by
  have hparts := prefix_induction (l := events) (P := fun part => ∀ e,
    latest (s₀.history part) key = some e → s₀.Clears part key) (fun e he => by cases he)
    fun part ev after hsplit ih e he => ?_
  · exact hparts e hlatest
  have hflow := flow_of_split hstart habort haccepted hsplit
  by_cases hnone : fetchesOf ((s₀.run part).news ev) key = []
  · -- the moment is one of before
    have hold : latest (s₀.history part) key = some e := by
      rw [history_concat, latest_append, show latest ((s₀.run part).news ev) key = none from
        congrArg List.getLast? hnone] at he
      exact he
    obtain ⟨first, rest, rfl, hwait, hquiet, hrest⟩ := ih e hold
    have hserial' := (isSerial_of_split hserial hsplit).2
    rw [run_append] at hserial' hnone
    refine ⟨first, rest ++ [ev], (List.append_assoc _ _ _).symm.symm, hwait, ?_, ?_⟩
    · rw [history_concat, fetchesOf, List.filterMap_append]
      exact List.append_eq_nil_iff.mpr ⟨hquiet, hnone⟩
    · rw [isSerial_append, hrest, Bool.true_and, isSerial, hserial']
      rfl
  · -- the entry waits now
    refine ⟨part ++ [ev], [], (List.append_nil _).symm, ?_, rfl, rfl⟩
    rw [run_concat]
    generalize (s₀.run part).news ev = more at hflow hnone
    generalize (s₀.run part).write? ev = x at hflow
    generalize (s₀.run part).apply ev = s' at hflow ⊢
    cases hflow with
    | @fetches _ _ id t cache e' _ ht hop hfree hwaiting hhand hstore =>
      rw [hwaiting]
      by_cases hkey : e'.key = key
      · rw [if_pos hkey]
        rfl
      · exact absurd (by simp [fetchesOf, Happening.fetched?, hkey]) hnone
    | keeps hwaiting hhand hstore hquiet =>
      exact absurd (filterMap_fetched?_eq_nil hquiet key) hnone
    | _ => exact absurd rfl hnone

/-- In the course of the flush at the end nothing is fetched, and nothing is taken while something
    is in hand. -/
theorem Final.quiet {s : System α ε σ} {f : Nat} (h : s.Final f) (ev : Event α ε σ) :
    (∀ id cache e, .fetched id cache e ∉ s.news ev) ∧
      ∀ id cache, .took id cache ∈ s.news ev → ∀ w, ¬ s.InHand w := by
  have hmove := apply_move s ev
  generalize s.news ev = more at hmove ⊢
  generalize s.apply ev = s' at hmove
  cases hmove with
  | @step clock outcome k t _ _ ht hturn =>
    refine ⟨fun id cache e hfetched => ?_, fun id cache htook => ?_⟩
    · obtain ⟨rfl, -, -, rfl, -⟩ := hturn.exists_of_fetched hfetched
      obtain ⟨-, _, _, heq⟩ := h.flusher _ _ ht rfl
      cases heq
    · obtain ⟨hop, hfree, htaking⟩ := hturn.free_of_took htook
      obtain ⟨rfl, now, stage, rfl⟩ := h.flusher k t ht hop
      have hstage : stage = .taking := htaking _ _ _ rfl
      rintro w ⟨k', t', hk', hw⟩
      by_cases hop' : t'.isOperation = true
      · obtain ⟨rfl, -⟩ := h.flusher k' t' hk' hop'
        cases ht.symm.trans hk'
        rw [hfree] at hw
        exact absurd hw List.not_mem_nil
      · cases t' with
        | pass cache' p => exact h.alone _ ht (hstage ▸ Nat.le_refl 2) k' cache' p hk'
        | lookup cache' key now stage => exact hop' rfl
        | flush cache' now stage => exact hop' rfl
        | maintenance cache' secs stage => exact hop' rfl
        | _ => exact absurd hw List.not_mem_nil
  | lookup hc => exact ⟨by simp, by simp⟩
  | _ => exact ⟨by simp, by simp⟩

/-- What still waits when the flush at the end is called. -/
theorem clears_of_waiting {now : Instant} (hstart : s₀ = single store space settings startedAt)
    (hrest : (s₀.run before).isResting = true) (htail : ∀ ev ∈ tail, ev.isCall = false)
    (hwait : ((s₀.run before).waiting? key).isSome = true) :
    s₀.Clears (before ++ .flush 0 now :: tail) key := by
  have hquiet := prefix_induction (l := tail) (P := fun later =>
    fetchesOf ((s₀.run before).history (.flush 0 now :: later)) key = [] ∧
      (s₀.run before).isSerial key (.flush 0 now :: later) = true) ⟨rfl, rfl⟩
    fun later ev after hsplit ⟨hnofetch, hserial⟩ => ?_
  · exact ⟨before, _, rfl, hwait, hquiet⟩
  have hfinal : (s₀.run (before ++ .flush 0 now :: later)).Final (s₀.run before).next := by
    subst hstart
    refine final_run hrest fun ev' hev' => htail ev' ?_
    exact hsplit ▸ List.mem_append_left _ hev'
  obtain ⟨hfetched, htook⟩ := hfinal.quiet ev
  rw [run_append] at hfetched htook
  have hapart : ((s₀.run before).run (.flush 0 now :: later)).overlaps key ev = false := by
    rw [overlaps]
    by_cases hany : (((s₀.run before).run (.flush 0 now :: later)).news ev).any
        Happening.isTook = true
    · obtain ⟨x, hx, hxtook⟩ := List.any_eq_true.mp hany
      cases x with
      | took id cache =>
        rw [isPutting_eq_false_iff.mpr fun w hw => absurd hw (htook id cache hx w), Bool.and_false]
      | _ => cases hxtook
    · rw [Bool.not_eq_true] at hany
      rw [hany]
      rfl
  rw [← List.cons_append]
  refine ⟨?_, ?_⟩
  · rw [history_concat, fetchesOf_append_of_not_fetched hfetched]
    exact hnofetch
  · rw [isSerial_append, hserial, Bool.true_and, isSerial, hapart]
    rfl

/-- What a run has made of the entry `e` of a key that was fetched last, `x` being the last write of
    the key. -/
structure Settled (s₀ : System α ε σ) (settings : CacheSettings) (last : Instant)
    (before events : List (Event α ε σ)) (key : String) (e : Entry α) (x : StoreWrite α) :
    Prop where
  isLast : lastWrite (s₀.writes events) key = some x
  encoded : x.entry.encode? = some x.bytes
  /-- The store comes to it, as long as it is safe. -/
  read : x.clock.Outlasts settings.durableTtlSecs last →
    ∀ r, (DurableStore.get (s₀.run events).store last key).1 = .ok r → r = some x.bytes
  /-- The entry that was fetched last has been written too. -/
  put : ∃ y ∈ s₀.writes events, y.entry = e
  /-- It is the last one, if nothing of the key was in hand when it was taken. -/
  clear : s₀.Clears events key → x.entry = e
  /-- So it is if it still waited when the flush was called. -/
  waited : ((s₀.run before).waiting? key).isSome = true → x.entry = e
  /-- Without overlapping passes the writes come in the order of the fetches. -/
  ordered : s₀.isSerial key events = true →
    x.entry = e ∧ (putsOf (s₀.writes events) key).Sublist (fetchesOf (s₀.history events) key)
  /-- So they do with one operation at a time that writes its passes itself. -/
  inline : settings.backgroundFlush = false → s₀.isSequential events = true →
    x.entry = e ∧ (putsOf (s₀.writes events) key).Sublist (fetchesOf (s₀.history events) key)

/-- Take a run of a single cache over a lasting store that accepts every write and in which others
    spare the namespace, without any task being given up; lookups and passes may go on at the same
    time in any order. Let the run end with a flush that was called with no operation under way.
    Then the store holds under every key the entry whose write took effect last, and this is the
    entry that was fetched last unless a pass took it while another one still had one of the key in
    hand. -/
theorem last_write_wins [LastingStore σ] {now : Instant} {e : Entry α} {v : Bytes}
    (hstart : s₀ = single store space settings startedAt)
    (hflush : events = before ++ .flush 0 now :: tail) (hrest : (s₀.run before).isResting = true)
    (htail : ∀ ev ∈ tail, ev.isCall = false)
    (hflushed : ∃ r, (s₀.run events).task? (s₀.run before).next = some (.flushed r))
    (habort : ∀ id, .abort id ∉ events) (haccepted : ∀ x ∈ s₀.writes events, x.outcome = .accepted)
    (hlast : last.IsReading) (hclocks : ∀ t ∈ clocks events, t.IsReading ∧ t ≤ last)
    (hown : ∀ change, .disturb change ∈ events → Spares space settings.durableTtlSecs last change)
    (hlatest : latest (s₀.history events) key = some e) (henc : e.encode? = some v) :
    ∃ x, s₀.Settled settings last before events key e x := by
  have hfiled := filed_run hstart habort haccepted hlast hclocks hown (List.append_nil events).symm
  -- at the end nothing waits and nothing is in hand
  obtain ⟨r, hr⟩ := hflushed
  have hover : (∀ k t, (s₀.run events).task? k = some t → t.isOver = true) ∧
      ∀ key, (s₀.run events).waiting? key = none := by
    subst hstart hflush
    exact (final_run hrest htail).over hr
  have hidle : ∀ w, ¬ (s₀.run events).InHand w := by
    rintro w ⟨k, t, hk, hw⟩
    rw [Task.unwritten_of_isOver (hover.1 k t hk)] at hw
    exact absurd hw List.not_mem_nil
  obtain ⟨y, hy, hentry⟩ : ∃ y ∈ s₀.writes events, y.entry = e := by
    rcases hfiled.put key e v hlatest henc with ⟨w, hw⟩ | ⟨w, hw, -⟩ | hput
    · cases (hover.2 key).symm.trans hw
    · exact absurd hw (hidle w)
    · exact hput
  obtain ⟨rfl, id, cache, hfetched⟩ := exists_of_latest hlatest
  have hspace : InSpace space e.key := by
    subst hstart
    obtain ⟨space', settings', startedAt', hspec, hkey⟩ := inSpace_of_fetched store hfetched
    cases cache with
    | zero =>
      cases hspec
      exact hkey
    | succ cache => cases hspec
  obtain ⟨x, hx⟩ := exists_lastWrite hy (congrArg Entry.key hentry)
  have hheld := hfiled.held e.key x hspace hx
  have hclear : s₀.Clears events e.key → x.entry = e := by
    rintro ⟨part, rest, hsplit, hwait, hnofetch, hserial⟩
    obtain ⟨w, hw⟩ := Option.isSome_iff_exists.mp hwait
    -- what waits then is the latest entry, as none is fetched any more
    have hpart : w.entry = e := by
      have hold := (filed_run hstart habort haccepted hlast hclocks hown hsplit).waiting e.key w hw
      rw [hsplit, history_append, latest_append, show latest ((s₀.run part).history rest) e.key =
        none from congrArg List.getLast? hnofetch, Option.none_or, hold] at hlatest
      exact Option.some.inj hlatest
    have hnewest := newest_run hstart habort haccepted hsplit hw (hpart ▸ henc) hnofetch hserial
    rw [← hpart]
    exact hnewest.put (hover.2 _) (fun w hw => absurd hw (hidle w)) x hx
  have hordered : s₀.isSerial e.key events = true →
      x.entry = e ∧
        (putsOf (s₀.writes events) e.key).Sublist (fetchesOf (s₀.history events) e.key) := by
    intro hserial
    obtain ⟨hand, -, hsub⟩ := inOrder_run hstart habort haccepted hserial
    refine ⟨hclear (clears_of_isSerial hstart habort haccepted hserial hlatest), ?_⟩
    rw [chain, List.append_assoc] at hsub
    exact (List.sublist_append_left _ _).trans hsub
  refine ⟨x, hx, hheld.encoded, fun hsafe r' hr' => ?_, ⟨y, hy, hentry⟩, hclear, fun hwait => ?_,
    hordered, fun hinline hseq => hordered (isSerial_of_isSequential hstart hinline hseq e.key)⟩
  · exact LastingStore.eq_of_holds hheld.reading hlast hsafe (hheld.held hsafe) hr'
  · exact hclear (hflush ▸ clears_of_waiting hstart hrest htail hwait)

end Runs

/-! ### A run in which a pass overtakes another one -/

/-- An entry of a key is fetched and handed to a pass in the background, and then a newer one to
    another pass; an entry of another key is fetched at last and waits. -/
def overtaking : List (Event String Unit MemoryStore) :=
  lookupRun (.ofSymbols ["b"]) 0 ⟨10, 0⟩ [none, none, none, some (.ok "v"), none, none] ++
    lookupRun (.ofSymbols ["b"]) 2 ⟨20, 0⟩ [none, none, none, some (.ok "w"), none, none] ++
    lookupRun (.ofSymbols ["a"]) 4 ⟨25, 0⟩ [none, none, none, some (.ok "x"), none]

/-- The same, with a flush that is called while both passes are under way. The newer pass writes
    its entry before the older one does. -/
def overtakingFlush : List (Event String Unit MemoryStore) :=
  overtaking ++ .flush 0 ⟨26, 0⟩ :: [5, 3, 3, 1, 1, 5, 5, 5, 5].map (.step ⟨26, 0⟩ none)

/-- The cache of these runs, with passes in the background. -/
def overtaken : System String Unit MemoryStore :=
  single .empty "n" ⟨5, 10, 86400, true⟩ ⟨0, 0⟩

/-- The older entry of the key of both passes is what the store keeps; the entry that still waited
    when the flush was called is kept as it was fetched. -/
theorem last_write_wins_overtaken :
    (∃ x, lastWrite (overtaken.writes overtakingFlush) "n:B" = some x ∧
      x.entry = ⟨"n:B", "v", ⟨10, 0⟩⟩ ∧
      (DurableStore.get (overtaken.run overtakingFlush).store ⟨60, 0⟩ "n:B").1 =
        .ok (some x.bytes) ∧
      ∃ y ∈ overtaken.writes overtakingFlush, y.entry = ⟨"n:B", "w", ⟨20, 0⟩⟩) ∧
    ∃ x, lastWrite (overtaken.writes overtakingFlush) "n:A" = some x ∧
      x.entry = ⟨"n:A", "x", ⟨25, 0⟩⟩ ∧
      (DurableStore.get (overtaken.run overtakingFlush).store ⟨60, 0⟩ "n:A").1 =
        .ok (some x.bytes) := by
  have hsettled : ∀ key e v, latest (overtaken.history overtakingFlush) key = some e →
      e.encode? = some v → ∃ x, overtaken.Settled ⟨5, 10, 86400, true⟩ ⟨60, 0⟩ overtaking
        overtakingFlush key e x := fun key e v hlatest henc =>
    last_write_wins rfl rfl (by decide +kernel) (by decide +kernel) ⟨⟨1, 1, 0⟩, by decide +kernel⟩
      (by simp [overtakingFlush, overtaking, lookupRun]) (by decide +kernel) (by decide)
      (by decide +kernel) (by simp [overtakingFlush, overtaking, lookupRun]) hlatest henc
  have hread : ∀ {key e x}, overtaken.Settled ⟨5, 10, 86400, true⟩ ⟨60, 0⟩ overtaking
      overtakingFlush key e x →
      (DurableStore.get (overtaken.run overtakingFlush).store ⟨60, 0⟩ key).1 =
        .ok (some x.bytes) := by
    intro key e x h
    have hsafe : ∀ x ∈ overtaken.writes overtakingFlush, x.clock.Outlasts 86400 ⟨60, 0⟩ := by
      decide +kernel
    exact congrArg Except.ok (h.read (hsafe x (mem_of_lastWrite h.isLast)) _ rfl)
  obtain ⟨x, hx⟩ := hsettled "n:B" ⟨"n:B", "w", ⟨20, 0⟩⟩ _ (by decide +kernel) rfl
  obtain ⟨y, hy⟩ := hsettled "n:A" ⟨"n:A", "x", ⟨25, 0⟩⟩ _ (by decide +kernel) rfl
  refine ⟨⟨x, hx.isLast, ?_, hread hx, hx.put⟩, y, hy.isLast, hy.waited (by decide +kernel),
    hread hy⟩
  have hentry : (lastWrite (overtaken.writes overtakingFlush) "n:B").map (·.entry) =
      some ⟨"n:B", "v", ⟨10, 0⟩⟩ := by decide +kernel
  rw [hx.isLast] at hentry
  exact Option.some.inj hentry

/-- Lookups one after another, over a store that accepts every write, with passes in the background
    and a flush at the end: under a key the store keeps an entry that is older than the latest. -/
theorem not_latest_overtaken :
    overtaken.isSequential overtakingFlush = true ∧
      (overtaken.run overtaking).isResting = true ∧
      (overtaken.run overtakingFlush).task? 5 = some (.flushed ⟨1, 1, 0⟩) ∧
      (∀ x ∈ overtaken.writes overtakingFlush, x.outcome = .accepted) ∧
      latest (overtaken.history overtakingFlush) "n:B" = some ⟨"n:B", "w", ⟨20, 0⟩⟩ ∧
      (DurableStore.get (overtaken.run overtakingFlush).store ⟨26, 0⟩ "n:B").1 =
        .ok (Entry.encode? (⟨"n:B", "v", ⟨10, 0⟩⟩ : Entry String)) ∧
      Entry.encode? (⟨"n:B", "v", ⟨10, 0⟩⟩ : Entry String) ≠
        Entry.encode? (⟨"n:B", "w", ⟨20, 0⟩⟩ : Entry String) := by
  refine ⟨?_, ?_, ?_, ?_, ?_, ?_, ?_⟩ <;> decide +kernel

end System

end MarketCache
