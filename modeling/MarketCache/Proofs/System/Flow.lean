import MarketCache.Proofs.System.Sequential
import MarketCache.Proofs.WriteBack.Batch

/-!
# Entries on their way to the store

What was fetched waits in the cache, is taken by a task, and is then put into the store, unless it
cannot be encoded. Any number of tasks may have taken some of it at the same time. All that an
event can do on this way is told here once, for a single cache.

Main definitions:
* `System.waiting?`: what waits for a key.
* `System.InHand`: what a task has taken and not yet attempted.
* `System.Flow`: all that an event can do, if the store accepts what is written.

Results:
* `step_of_pass?`, `step_of_write?`: the step of a task that writes.
* `apply_flow`: every event that gives no task up does one of these things.
-/

namespace MarketCache

namespace System

variable {α ε σ : Type}

/-- The write that waits for a key in the first cache. -/
def waiting? (s : System α ε σ) (key : String) : Option (PendingWrite α) :=
  (s.cache? 0).bind fun c => c.writeBack.pendingFor? key

/-- Whether some task has a write in hand. -/
def InHand (s : System α ε σ) (w : PendingWrite α) : Prop :=
  ∃ id t, s.task? id = some t ∧ w ∈ t.unwritten

/-- Whether some other task has a write in hand. -/
def InOtherHands (s : System α ε σ) (id : Nat) (w : PendingWrite α) : Prop :=
  ∃ k t, k ≠ id ∧ s.task? k = some t ∧ w ∈ t.unwritten

/-! ## What waits -/

section Waiting

variable {s : System α ε σ} {c : TieredCache α}

theorem waiting?_eq (hc : s.cache? 0 = some c) (key : String) :
    s.waiting? key = c.writeBack.pendingFor? key := by
  rw [waiting?, hc]
  rfl

/-- What waits after a change of the cache. -/
theorem waiting?_setCache (hc : s.cache? 0 = some c) (c' : TieredCache α) (key : String) :
    (s.setCache 0 c').waiting? key = c'.writeBack.pendingFor? key := by
  refine waiting?_eq ?_ key
  rw [cache?_setCache, if_pos rfl, hc]
  rfl

/-- What waits after a change of the cache that leaves its write-back alone. -/
theorem waiting?_setCache_of_writeBack (hc : s.cache? 0 = some c) {c' : TieredCache α}
    (hsame : c'.writeBack = c.writeBack) (key : String) :
    (s.setCache 0 c').waiting? key = s.waiting? key := by
  rw [waiting?_setCache hc, waiting?_eq hc, hsame]

theorem waiting?_congr {s' : System α ε σ} (hsame : s'.cache? 0 = s.cache? 0) (key : String) :
    s'.waiting? key = s.waiting? key := by
  rw [waiting?, hsame, waiting?]

end Waiting

/-! ## What is in hand -/

section InHand

variable {s s₁ : System α ε σ} {id : Nat} {t t' : Task α ε} {w : PendingWrite α}

/-- What is in hand is so of one task or of another. -/
theorem inHand_iff_of_task? (ht : s.task? id = some t) :
    s.InHand w ↔ w ∈ t.unwritten ∨ s.InOtherHands id w := by
  refine ⟨fun ⟨k, t₁, hk, hw⟩ => ?_, ?_⟩
  · by_cases heq : k = id
    · rw [heq, ht] at hk
      cases hk
      exact Or.inl hw
    · exact Or.inr ⟨k, t₁, heq, hk, hw⟩
  · rintro (hw | ⟨k, t₁, -, hk, hw⟩)
    · exact ⟨id, t, ht, hw⟩
    · exact ⟨k, t₁, hk, hw⟩

theorem inHand_setTask_iff (htasks : ∀ k, s₁.task? k = s.task? k) (t' : Task α ε) :
    (s₁.setTask id t').InHand w ↔ w ∈ t'.unwritten ∨ s.InOtherHands id w := by
  have hother : (s₁.setTask id t').InOtherHands id w ↔ s.InOtherHands id w := by
    refine exists_congr fun k => exists_congr fun t₁ => and_congr_right fun hne => ?_
    rw [task?_setTask, if_neg (Ne.symm hne), htasks]
  rw [inHand_iff_of_task? (task?_setTask_self s₁ id t'), hother]

/-- A task that goes on with what it has in hand. -/
theorem inHand_goOn (ht : s.task? id = some t) (htasks : ∀ k, s₁.task? k = s.task? k)
    (hsame : t'.unwritten = t.unwritten) (w : PendingWrite α) :
    (s₁.setTask id t').InHand w ↔ s.InHand w := by
  rw [inHand_setTask_iff htasks, inHand_iff_of_task? ht, hsame]

/-- A pass that has attempted a write has the others still in hand. -/
theorem inHand_withPass {rest : List (PendingWrite α)} {r : FlushReport}
    (ht : s.task? id = some t) (hp : t.pass? = some ⟨w :: rest, r⟩) (s₁ : System α ε σ)
    (htasks : ∀ k, s₁.task? k = s.task? k) (r' : FlushReport) :
    s.InHand w ∧
      (∀ w', s.InHand w' → w' = w ∨ (s₁.setTask id (t.withPass ⟨rest, r'⟩)).InHand w') ∧
      ∀ w', (s₁.setTask id (t.withPass ⟨rest, r'⟩)).InHand w' → s.InHand w' := by
  have hold : ∀ w', s.InHand w' ↔ (w' = w ∨ w' ∈ rest) ∨ s.InOtherHands id w' := fun w' => by
    rw [inHand_iff_of_task? ht, unwritten_of_pass? hp, List.mem_cons]
  have hnew : ∀ w', (s₁.setTask id (t.withPass ⟨rest, r'⟩)).InHand w' ↔
      w' ∈ rest ∨ s.InOtherHands id w' := fun w' => by
    rw [inHand_setTask_iff htasks, unwritten_of_pass? (pass?_withPass hp _)]
  refine ⟨(hold w).mpr (Or.inl (Or.inl rfl)), fun w' hw => ?_, fun w' hw => ?_⟩
  · rw [hnew]
    rcases (hold w').mp hw with (heq | hw) | hw
    · exact Or.inl heq
    · exact Or.inr (Or.inl hw)
    · exact Or.inr (Or.inr hw)
  · exact (hold w').mpr (((hnew w').mp hw).imp_left Or.inr)

/-- A new task has nothing in hand but what it was given. -/
theorem inHand_add (hnext : s.task? s.next = none) (w : PendingWrite α) :
    (s.add t).2.InHand w ↔ w ∈ t.unwritten ∨ s.InHand w := by
  have hother : s.InOtherHands s.next w ↔ s.InHand w := by
    refine ⟨fun ⟨k, t₁, _, hk, hw⟩ => ⟨k, t₁, hk, hw⟩, fun ⟨k, t₁, hk, hw⟩ => ⟨k, t₁, ?_, hk, hw⟩⟩
    rintro rfl
    cases hnext.symm.trans hk
  rw [← hother]
  exact inHand_setTask_iff (fun _ => rfl) t

/-- A batch that a lookup hands to a new pass stays in hand. -/
theorem inHand_detach {s₂ : System α ε σ} {cache : Nat} {batch : List (PendingWrite α)}
    (ht : s.task? id = some t) (hbatch : t.unwritten = batch) (hnext : s.task? s.next = none)
    (htasks : ∀ k, s₂.task? k = (s.add (.pass cache (.ofBatch batch))).2.task? k)
    (hnone : t'.unwritten = []) (w : PendingWrite α) :
    (s₂.setTask id t').InHand w ↔ s.InHand w := by
  have hne : id ≠ s.next := by
    rintro rfl
    cases hnext.symm.trans ht
  have hpass : (s.add (.pass cache (.ofBatch batch))).2.task? s.next =
      some (.pass cache (.ofBatch batch)) := task?_add_self s _
  have hold : ∀ k, k ≠ s.next →
      (s.add (.pass cache (.ofBatch batch))).2.task? k = s.task? k := fun _ hk =>
    task?_add_of_ne s _ hk
  rw [inHand_setTask_iff htasks, hnone, inHand_iff_of_task? ht, hbatch]
  constructor
  · rintro (hw | ⟨k, t₁, hk, ht₁, hw⟩)
    · exact absurd hw List.not_mem_nil
    · by_cases heq : k = s.next
      · rw [heq, hpass] at ht₁
        cases ht₁
        exact Or.inl hw
      · exact Or.inr ⟨k, t₁, hk, (hold k heq).symm.trans ht₁, hw⟩
  · rintro (hw | ⟨k, t₁, hk, ht₁, hw⟩)
    · exact Or.inr ⟨s.next, _, Ne.symm hne, hpass, hw⟩
    · refine Or.inr ⟨k, t₁, hk, (hold k ?_).trans ht₁, hw⟩
      rintro rfl
      cases hnext.symm.trans ht₁

end InHand

/-! ## Steps that write -/

section Writers

variable [Payload α] [DurableStore σ] {s : System α ε σ} {clock : Instant}
  {outcome : Option (Except ε α)} {id cache : Nat} {t : Task α ε} {c : TieredCache α}

/-- The step of a task that writes is one of its pass. -/
theorem step_of_pass? {p : Pass α} (ht : s.task? id = some t) (hp : t.pass? = some p)
    (hcache : t.cache? = some cache) (hc : s.cache? cache = some c) :
    s.step clock outcome id =
      afterProgress (s.stepPass cache c clock p).2 id t (s.stepPass cache c clock p).1 := by
  obtain ⟨slot, hslot, rfl⟩ := Option.map_eq_some_iff.mp hc
  rcases writer_cases hp with ⟨_, _, _, _, rfl⟩ | ⟨_, _, rfl⟩ | ⟨_, rfl⟩ | ⟨_, _, _, rfl⟩ <;>
    cases hcache
  · simp only [step, ht, hc, stepLookup]
    rcases s.stepPass cache slot.cache clock p with ⟨progress, s'⟩
    cases progress <;> rfl
  · simp only [step, ht, hslot, stepFlush]
    rcases s.stepPass cache slot.cache clock p with ⟨progress, s'⟩
    cases progress <;> rfl
  · simp only [step, ht, hc]
    rcases s.stepPass cache slot.cache clock p with ⟨progress, s'⟩
    cases progress <;> rfl
  · simp only [step, ht, hslot, stepFlush]
    rcases s.stepPass cache slot.cache clock p with ⟨progress, s'⟩
    cases progress <;> rfl

theorem write?_of_pass? {w : PendingWrite α} {rest : List (PendingWrite α)} {r : FlushReport}
    (ht : s.task? id = some t) (hp : t.pass? = some ⟨w :: rest, r⟩)
    (hcache : t.cache? = some cache) (hc : s.cache? cache = some c) (clock : Instant)
    (outcome : Option (Except ε α)) :
    s.write? (.step clock outcome id) = w.entry.encode?.map fun bytes =>
      ⟨clock, w.entry, bytes, c.writeBack.ttlSecs,
        (DurableStore.put s.store clock w.key bytes c.writeBack.ttlSecs).1⟩ := by
  simp only [write?, ht, hp, hcache, Option.bind_some, hc]

/-- Only a task that writes asks for a write. -/
theorem exists_of_write? {x : StoreWrite α} (ht : s.task? id = some t)
    (h : s.write? (.step clock outcome id) = some x) :
    ∃ cache c w rest r, t.pass? = some ⟨w :: rest, r⟩ ∧ t.cache? = some cache ∧
      s.cache? cache = some c := by
  simp only [write?, ht] at h
  split at h
  · next w rest r c hp hc =>
    obtain ⟨cache, hcache, hc⟩ := Option.bind_eq_some_iff.mp hc
    exact ⟨cache, c, w, rest, r, hp, hcache, hc⟩
  · cases h

/-- A step that asks for a write attempts it, or goes down with the store. -/
theorem step_of_write? {x : StoreWrite α} (ht : s.task? id = some t)
    (h : s.write? (.step clock outcome id) = some x) :
    ∃ cache c w rest r, t.pass? = some ⟨w :: rest, r⟩ ∧ t.cache? = some cache ∧
      s.cache? cache = some c ∧ w.entry.encode? = some x.bytes ∧
      x = ⟨clock, w.entry, x.bytes, c.writeBack.ttlSecs,
        (DurableStore.put s.store clock w.key x.bytes c.writeBack.ttlSecs).1⟩ ∧
      s.step clock outcome id =
        setTask
          { s with store := (DurableStore.put s.store clock w.key x.bytes c.writeBack.ttlSecs).2 }
          id (if x.outcome = .aborted then .aborted
            else t.withPass ⟨rest, r.tally x.outcome.toAttempt⟩) ∧
      s.news (.step clock outcome id) =
        if x.outcome = .aborted then [.broke id] else [.attempted id w] := by
  obtain ⟨cache, c, w, rest, r, hp, hcache, hc⟩ := exists_of_write? ht h
  refine ⟨cache, c, w, rest, r, hp, hcache, hc, ?_⟩
  rw [write?_of_pass? ht hp hcache hc] at h
  obtain ⟨v, henc, rfl⟩ := Option.map_eq_some_iff.mp h
  have hstep : s.step clock outcome id = _ := step_of_pass? ht hp hcache hc
  rcases hput : DurableStore.put s.store clock w.key v c.writeBack.ttlSecs with ⟨a, store⟩
  simp only [stepPass, Pass.step, PendingWrite.attempt, henc, hput] at hstep
  cases a with
  | accepted =>
    refine ⟨henc, rfl, hstep, ?_⟩
    rw [news_step ht hstep]
    exact news_withPass hp _ _ _
  | refused =>
    refine ⟨henc, rfl, hstep, ?_⟩
    rw [news_step ht hstep]
    exact news_withPass hp _ _ _
  | aborted =>
    refine ⟨henc, rfl, hstep, ?_⟩
    rw [news_step ht hstep]
    exact news_broke hp _ _

end Writers

/-! ## What an event does -/

section Flow

variable [Payload α] [DurableStore σ]

/-- All that an event can do to the entries on their way to the store: what happens, what is
    written, and the system after it. -/
inductive Flow (s : System α ε σ) (ttl : UInt64) :
    Event α ε σ → List (Happening α ε) → Option (StoreWrite α) → System α ε σ → Prop where
  | keeps {ev more s'} (hwaiting : ∀ key, s'.waiting? key = s.waiting? key)
      (hhand : ∀ w, s'.InHand w ↔ s.InHand w) (hstore : s'.store = s.store)
      (hquiet : ∀ id cache e, .fetched id cache e ∉ more) : Flow s ttl ev more none s'
  | disturbs {change s'} (hwaiting : ∀ key, s'.waiting? key = s.waiting? key)
      (hhand : ∀ w, s'.InHand w ↔ s.InHand w) (hstore : s'.store = change s.store) :
      Flow s ttl (.disturb change) [] none s'
  | reads {clock outcome id s'} (key : String) (hwaiting : ∀ key, s'.waiting? key = s.waiting? key)
      (hhand : ∀ w, s'.InHand w ↔ s.InHand w)
      (hstore : s'.store = (DurableStore.get s.store clock key).2) :
      Flow s ttl (.step clock outcome id) [] none s'
  /-- An entry was fetched and waits, in the place of an older one of its key. -/
  | fetches {clock outcome id t cache e s'} (ht : s.task? id = some t)
      (hop : t.isOperation = true) (hnone : t.unwritten = [])
      (hwaiting : ∀ key, s'.waiting? key =
        if e.key = key then some ⟨e, e.capturedAt⟩ else s.waiting? key)
      (hhand : ∀ w, s'.InHand w ↔ s.InHand w) (hstore : s'.store = s.store) :
      Flow s ttl (.step clock outcome id) [.fetched id cache e] none s'
  /-- An operation that has nothing in hand takes all that waits. -/
  | takes {clock outcome id t cache s'} (ht : s.task? id = some t)
      (hop : t.isOperation = true) (hnone : t.unwritten = [])
      (hwaiting : ∀ key, s'.waiting? key = none)
      (hhand : ∀ w, s'.InHand w ↔ s.InHand w ∨ ∃ key, s.waiting? key = some w)
      (hstore : s'.store = s.store) : Flow s ttl (.step clock outcome id) [.took id cache] none s'
  /-- A write that was in hand is accepted by the store. -/
  | writes {clock outcome id w v s'} (henc : w.entry.encode? = some v)
      (hwaiting : ∀ key, s'.waiting? key = s.waiting? key) (hin : s.InHand w)
      (hhand : ∀ w', s.InHand w' → w' = w ∨ s'.InHand w')
      (hrest : ∀ w', s'.InHand w' → s.InHand w')
      (hput : (DurableStore.put s.store clock w.key v ttl).1 = .accepted)
      (hstore : s'.store = (DurableStore.put s.store clock w.key v ttl).2) :
      Flow s ttl (.step clock outcome id) [.attempted id w]
        (some ⟨clock, w.entry, v, ttl, .accepted⟩) s'
  /-- A write that was in hand cannot be encoded. -/
  | discards {clock outcome id w s'} (henc : w.entry.encode? = none)
      (hwaiting : ∀ key, s'.waiting? key = s.waiting? key) (hin : s.InHand w)
      (hhand : ∀ w', s.InHand w' → w' = w ∨ s'.InHand w')
      (hrest : ∀ w', s'.InHand w' → s.InHand w') (hstore : s'.store = s.store) :
      Flow s ttl (.step clock outcome id) [.attempted id w] none s'

variable {s s' : System α ε σ} {clock : Instant} {outcome : Option (Except ε α)} {id : Nat}
  {t : Task α ε} {more : List (Happening α ε)} {ttl : UInt64} {ev : Event α ε σ}

/-- A task that takes all that waits. -/
theorem flow_of_takeAll {cache : Nat} {c : TieredCache α} {t' : Task α ε}
    (hzero : ∀ k c, s.cache? k = some c → k = 0) (ht : s.task? id = some t)
    (hc : s.cache? cache = some c) (hop : t.isOperation = true) (hnone : t.unwritten = [])
    (hbatch : t'.unwritten = c.writeBack.batch) (now : Instant) :
    Flow s ttl (.step clock outcome id) [.took id cache] none
      ((s.setCache cache (c.takeAll now).2).setTask id t') := by
  cases hzero cache c hc
  refine Flow.takes ht hop hnone (fun key => ?_) (fun w => ?_) rfl
  · exact (waiting?_setCache hc _ key).trans (WriteBack.pendingFor?_takeAll c.writeBack now key)
  · have hset : ((s.setCache 0 (c.takeAll now).2).setTask id t').InHand w ↔
        w ∈ t'.unwritten ∨ s.InOtherHands id w := inHand_setTask_iff (fun _ => rfl) t'
    have hold : s.InHand w ↔ w ∈ t.unwritten ∨ s.InOtherHands id w := inHand_iff_of_task? ht
    have htaken : w ∈ c.writeBack.batch ↔ ∃ key, s.waiting? key = some w := by
      refine ⟨fun hw => ?_, fun ⟨key, hw⟩ => ?_⟩
      · obtain ⟨key, hkey⟩ := WriteBack.exists_of_mem_batch hw
        exact ⟨key, (waiting?_eq hc key).trans hkey⟩
      · rw [waiting?_eq hc] at hw
        exact WriteBack.mem_batch_of_pendingFor? hw
    rw [hset, hold, hnone, hbatch, htaken]
    simp only [List.not_mem_nil, false_or]
    exact Or.comm

/-- A step that asks for no write. -/
theorem Turn.flow (hturn : Turn s clock id t more s')
    (hzero : ∀ k c, s.cache? k = some c → k = 0) (hnext : s.task? s.next = none)
    (ht : s.task? id = some t) (hwrite : s.write? (.step clock outcome id) = none) :
    Flow s ttl (.step clock outcome id) more none s' := by
  have hwaiting : ∀ {cache c} {c' : TieredCache α} {t'}, s.cache? cache = some c →
      c'.writeBack = c.writeBack →
      ∀ key, ((s.setCache cache c').setTask id t').waiting? key = s.waiting? key := by
    intro cache c c' t' hc hsame key
    cases hzero cache c hc
    exact waiting?_setCache_of_writeBack hc hsame key
  have hhand : ∀ {s₁ : System α ε σ} {t'}, (∀ k, s₁.task? k = s.task? k) →
      t'.unwritten = t.unwritten → ∀ w, (s₁.setTask id t').InHand w ↔ s.InHand w :=
    fun htasks hsame => inHand_goOn ht htasks hsame
  cases hturn with
  | idle => exact Flow.keeps (fun _ => rfl) (fun _ => Iff.rfl) rfl (by simp)
  | hot hc he hfresh => exact Flow.keeps (hwaiting hc rfl) (hhand (fun _ => rfl) rfl) rfl (by simp)
  | cold hc => exact Flow.keeps (hwaiting hc rfl) (hhand (fun _ => rfl) rfl) rfl (by simp)
  | @read cache key now r store hget =>
    exact Flow.reads key (fun _ => rfl) (hhand (fun _ => rfl) rfl) (congrArg Prod.snd hget).symm
  | durable hc hfresh => exact Flow.keeps (hwaiting hc rfl) (hhand (fun _ => rfl) rfl) rfl (by simp)
  | call counters hc => exact Flow.keeps (hwaiting hc rfl) (hhand (fun _ => rfl) rfl) rfl (by simp)
  | @fetched cache key now c payload hc =>
    cases hzero cache c hc
    refine Flow.fetches ht rfl rfl (fun k => ?_) (hhand (fun _ => rfl) rfl) rfl
    have hrecord := WriteBack.pendingFor?_record c.writeBack ⟨key, payload, now⟩ now k
    rw [← waiting?_eq hc] at hrecord
    exact (waiting?_setCache hc _ k).trans hrecord
  | refused err => exact Flow.keeps (fun _ => rfl) (hhand (fun _ => rfl) rfl) rfl (by simp)
  | rest => exact Flow.keeps (fun _ => rfl) (hhand (fun _ => rfl) rfl) rfl (by simp)
  | @hand cache key now answer c hc => exact flow_of_takeAll hzero ht hc rfl rfl rfl now
  | @begin cache key now answer c hc => exact flow_of_takeAll hzero ht hc rfl rfl rfl now
  | @detach key now answer cache batch c hc =>
    refine Flow.keeps (fun key => ?_) (inHand_detach ht rfl hnext (fun _ => rfl) rfl) rfl (by simp)
    exact waiting?_congr (cache?_modify_inFlight _ cache 0 (· ++ [s.next])) key
  | @write _ cache c w rest r a store hp hcache hc hw ha =>
    rw [write?_of_pass? ht hp hcache hc, Option.map_eq_none_iff] at hwrite
    unfold PendingWrite.attempt at hw
    rw [hwrite] at hw
    obtain ⟨hin, hthose, hrest⟩ :=
      inHand_withPass ht hp { s with store } (fun _ => rfl) (r.tally a)
    exact Flow.discards hwrite (fun _ => rfl) hin hthose hrest (congrArg Prod.snd hw).symm
  | @broke _ cache c w rest r store hp hcache hc hw =>
    rw [write?_of_pass? ht hp hcache hc, Option.map_eq_none_iff] at hwrite
    unfold PendingWrite.attempt at hw
    rw [hwrite] at hw
    cases hw
  | @wrote _ cache c r hp hcache hc =>
    have hnone : (t.afterPass r).unwritten = t.unwritten := by
      rcases writer_cases hp with ⟨_, _, _, _, rfl⟩ | ⟨_, _, rfl⟩ | ⟨_, rfl⟩ | ⟨_, _, _, rfl⟩ <;>
        rfl
    refine Flow.keeps (fun key => ?_) (hhand (fun _ => rfl) hnone) rfl ?_
    · cases hzero cache c hc
      exact (waiting?_setCache hc _ key).trans (waiting?_eq hc key).symm
    · split <;> simp
  | wake => exact Flow.keeps (fun _ => rfl) (hhand (fun _ => rfl) rfl) rfl (by simp)
  | @takeOver _ now cache slot hf hcache hslot =>
    refine Flow.keeps (waiting?_congr (cache?_setSlot s cache 0 hslot []))
      (hhand (fun _ => rfl) ?_) rfl (by simp)
    exact (unwritten_withFlush hf _).trans (unwritten_of_flushing? hf).symm
  | wait hf =>
    refine Flow.keeps (fun _ => rfl) (hhand (fun _ => rfl) ?_) rfl (by simp)
    exact (unwritten_withFlush hf _).trans (unwritten_of_flushing? hf).symm
  | join hf hover =>
    refine Flow.keeps (fun _ => rfl) (hhand (fun _ => rfl) ?_) rfl (by simp)
    exact (unwritten_withFlush hf _).trans (unwritten_of_flushing? hf).symm
  | @take _ now cache c hf hcache hc =>
    exact flow_of_takeAll hzero ht hc (isOperation_of_flushing? hf) (unwritten_of_flushing? hf)
      (unwritten_withFlush hf _) now

/-- A step that asks for a write, and the store accepts it. -/
theorem step_flow_of_write {x : StoreWrite α}
    (httl : ∀ k c, s.cache? k = some c → c.writeBack.ttlSecs = ttl) (ht : s.task? id = some t)
    (hwrite : s.write? (.step clock outcome id) = some x) (haccepted : x.outcome = .accepted) :
    Flow s ttl (.step clock outcome id) (s.news (.step clock outcome id)) (some x)
      (s.step clock outcome id) := by
  obtain ⟨cache, c, w, rest, r, hp, hcache, hc, henc, hx, hstep, hnews⟩ := step_of_write? ht hwrite
  obtain ⟨clock', e, v, ttl', a⟩ := x
  cases haccepted
  rw [httl cache c hc] at hx hstep
  obtain ⟨rfl, rfl, -, rfl, hput⟩ := StoreWrite.mk.inj hx
  rw [if_neg (by simp)] at hstep hnews
  obtain ⟨hin, hthose, hrest⟩ := inHand_withPass ht hp
    { s with store := (DurableStore.put s.store clock' w.key v ttl').2 } (fun _ => rfl)
    (r.tally (PutOutcome.toAttempt .accepted))
  rw [hnews, hstep]
  exact Flow.writes henc (fun _ => rfl) hin hthose hrest hput.symm rfl

/-- Every event that gives no task up does one of these things, if the store accepts what is
    written. -/
theorem apply_flow (hzero : ∀ k c, s.cache? k = some c → k = 0)
    (httl : ∀ k c, s.cache? k = some c → c.writeBack.ttlSecs = ttl)
    (hnext : s.task? s.next = none) (habort : ∀ id, ev ≠ .abort id)
    (haccepted : ∀ x, s.write? ev = some x → x.outcome = .accepted) :
    Flow s ttl ev (s.news ev) (s.write? ev) (s.apply ev) := by
  by_cases hstep : ∃ clock outcome id t, ev = .step clock outcome id ∧ s.task? id = some t
  · obtain ⟨clock, outcome, id, t, rfl, ht⟩ := hstep
    rcases hwrite : s.write? (.step clock outcome id) with _ | x
    · exact (step_turn ht).flow hzero hnext ht hwrite
    · exact step_flow_of_write httl ht hwrite (haccepted x hwrite)
  have hnowrite : s.write? ev = none := by
    cases ev with
    | step clock outcome id =>
      rcases ht : s.task? id with _ | t
      · simp only [write?, ht]
      · exact absurd ⟨clock, outcome, id, t, rfl, ht⟩ hstep
    | _ => rfl
  rw [hnowrite]
  have hadd : ∀ t : Task α ε, t.unwritten = [] → ∀ w, (s.add t).2.InHand w ↔ s.InHand w := by
    intro t hnone w
    rw [inHand_add hnext, hnone]
    simp
  have hmove := apply_move s ev
  generalize s.news ev = more at hmove ⊢
  generalize s.apply ev = s' at hmove ⊢
  cases hmove with
  | idle => exact Flow.keeps (fun _ => rfl) (fun _ => Iff.rfl) rfl (by simp)
  | lookup hc => exact Flow.keeps (fun _ => rfl) (hadd _ rfl) rfl (by simp)
  | flush => exact Flow.keeps (fun _ => rfl) (hadd _ rfl) rfl (by simp)
  | maintain => exact Flow.keeps (fun _ => rfl) (hadd _ rfl) rfl (by simp)
  | @invalidate cache q c hc =>
    cases hzero cache c hc
    exact Flow.keeps (waiting?_setCache_of_writeBack hc rfl) (fun _ => Iff.rfl) rfl (by simp)
  | step ht hturn => exact absurd ⟨_, _, _, _, rfl, ht⟩ hstep
  | @abort id => exact absurd rfl (habort id)
  | disturb => exact Flow.disturbs (fun _ => rfl) (fun _ => Iff.rfl) rfl

end Flow

end System

end MarketCache
