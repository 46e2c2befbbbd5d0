import MarketCache.Proofs.System.Access
import MarketCache.Proofs.System.Strand
import MarketCache.Store.Memory

/-!
# Lookups of different keys

Some lookups of one cache go on at the same time, each of another key, over a store whose reads
come to the same at all times, and no pass is due. Whatever the order of their steps, each
lookup goes through its own strand as far as it has had turns, and the cache is the one that
the strands make up. Once all of them are over there is nothing left that the order could
have changed.

Main definitions:
* `Call`, `System.ofCalls`, `System.steps`: some lookups, and an order of their steps.
* `Steady`: a store whose reads come to the same, key by key.
* `System.Unrelated`: lookups that have nothing to do with each other.
* `Call.strand`, `Call.log`: what a lookup has come to after some turns of its own.
* `Woven`, `System.Together`: the invariant.
* `System.Agree`: what two orders have in common.

Results:
* `Woven.step`: a change under one key leaves the other strands alone.
* `Together.turn`, `together_steps`: a turn keeps the invariant, and so does any order of turns.
* `lookups_commute`: the order makes no difference.
-/

namespace MarketCache

variable {α ε σ : Type}

namespace CacheStats

/-- The sum of the first `n` of some counters. -/
def sum (x : Nat → CacheStats) : Nat → CacheStats
  | 0 => zero
  | n + 1 => (sum x n).plus (x n)

theorem sum_congr {x y : Nat → CacheStats} {n : Nat} (h : ∀ i < n, x i = y i) :
    sum x n = sum y n := by
  induction n with
  | zero => rfl
  | succ n ih =>
    rw [sum, sum, h n (Nat.lt_succ_self n), ih fun i hi => h i (Nat.lt_succ_of_lt hi)]

/-- One of the counters goes up. -/
theorem sum_of_eq_off {x y : Nat → CacheStats} {n i : Nat} {more : CacheStats} (hi : i < n)
    (hoff : ∀ j, j ≠ i → y j = x j) (hmore : y i = (x i).plus more) :
    sum y n = (sum x n).plus more := by
  induction n with
  | zero => exact absurd hi (Nat.not_lt_zero i)
  | succ n ih =>
    rw [sum, sum]
    by_cases hlast : i = n
    · subst hlast
      rw [sum_congr fun j hj => hoff j (Nat.ne_of_lt hj), hmore, plus_assoc]
    · rw [ih (by omega), hoff n (Ne.symm hlast), plus_assoc, plus_assoc, plus_comm more]

end CacheStats

/-! ## Calls -/

/-- A lookup of a cache: its query, as of when it is made, and what the provider answers to it. -/
structure Call (α ε : Type) where
  query : LogicalQuery
  now : Instant
  outcome : Except ε α

/-- A store after some reads, each at what its clock showed. -/
def afterGets [DurableStore σ] (store : σ) (gets : List (Instant × String)) : σ :=
  gets.foldl (fun store get => (DurableStore.get store get.1 get.2).2) store

/-- Whether a read of a store comes to `reads` of its key, whatever was read before, as long as the
    clock shows some of the given instants. -/
def Steady [DurableStore σ] (store : σ) (shown : Instant → Prop)
    (reads : String → Except StoreError (Option Bytes)) : Prop :=
  ∀ gets : List (Instant × String), (∀ get ∈ gets, shown get.1) → ∀ clock key, shown clock →
    (DurableStore.get (afterGets store gets) clock key).1 = reads key

namespace System

/-- A cache over a store with some lookups that have been started. -/
def ofCalls [Payload α] [DurableStore σ] (c : TieredCache α) (store : σ)
    (calls : List (Call α ε)) : System α ε σ :=
  (ofCaches store [c]).run (calls.map fun call => .lookup 0 call.query call.now)

/-- The steps of some lookups in a given order: which of them takes its turn, and what the clock
    shows. -/
def steps (calls : List (Call α ε)) (order : List (Nat × Instant)) : List (Event α ε σ) :=
  order.map fun (i, clock) => .step clock (calls[i]?.map (·.outcome)) i

end System

section Strands

variable [Payload α]

/-- The strand of a call after some turns of its own. -/
def Call.strand (c : TieredCache α) (reads : String → Except StoreError (Option Bytes))
    (call : Call α ε) (n : Nat) : Strand α ε :=
  (Strand.start c 0 (c.keyFor call.query) call.now).after c.policy
    (.ofBytes (reads (c.keyFor call.query))) call.outcome n

/-- What has happened in some turns of a call, its task having a number and a new one the next. -/
def Call.log (c : TieredCache α) (reads : String → Except StoreError (Option Bytes))
    (call : Call α ε) (id next : Nat) : Nat → List (Happening α ε)
  | 0 => []
  | n + 1 => call.log c reads id next n ++
      (call.strand c reads n).task.news id next (call.strand c reads (n + 1)).task

namespace Call

variable {c : TieredCache α} {reads : String → Except StoreError (Option Bytes)}
  {call : Call α ε}

theorem strand_onCourse (n : Nat) : (call.strand c reads n).task.OnCourse 0
    (c.keyFor call.query) call.now (.ofBytes (reads (c.keyFor call.query))) :=
  Strand.onCourse_after .asking n

theorem answered_of_isOver {n : Nat} (h : (call.strand c reads n).task.isOver = true) :
    ∃ answer, (call.strand c reads n).task = .answered answer := by
  have hcourse : (call.strand c reads n).task.OnCourse 0 (c.keyFor call.query) call.now
      (.ofBytes (reads (c.keyFor call.query))) := strand_onCourse n
  generalize (call.strand c reads n).task = t at h hcourse ⊢
  cases hcourse with
  | answered answer => exact ⟨answer, rfl⟩
  | _ => cases h

/-- Five turns bring a call to its answer. -/
theorem answered_of_five_le {n : Nat} (hn : 5 ≤ n) :
    ∃ answer, (call.strand c reads n).task = .answered answer :=
  Strand.answered_of_five_le .asking hn

/-- Once a call is answered, nothing happens any more. -/
theorem add_of_answered {answer : Except ε (Lookup α)} {n : Nat}
    (h : (call.strand c reads n).task = .answered answer) (id next m : Nat) :
    call.strand c reads (n + m) = call.strand c reads n ∧
      call.log c reads id next (n + m) = call.log c reads id next n := by
  have hsame : ∀ m, call.strand c reads (n + m) = call.strand c reads n :=
    Strand.after_add_of_answered h
  refine ⟨hsame m, ?_⟩
  induction m with
  | zero => rfl
  | succ m ih =>
    rw [← Nat.add_assoc, log, ih, Nat.add_assoc, hsame, hsame, System.news_self, List.append_nil]

/-- However many turns it took, an answered call has come to the same. -/
theorem eq_of_answered {a a' : Except ε (Lookup α)} {n n' : Nat}
    (h : (call.strand c reads n).task = .answered a)
    (h' : (call.strand c reads n').task = .answered a') (id next : Nat) :
    call.strand c reads n = call.strand c reads n' ∧
      call.log c reads id next n = call.log c reads id next n' := by
  rcases Nat.le_total n n' with hle | hle
  · obtain ⟨m, rfl⟩ := Nat.exists_eq_add_of_le hle
    obtain ⟨hstrand, hlog⟩ := add_of_answered h id next m
    exact ⟨hstrand.symm, hlog.symm⟩
  · obtain ⟨m, rfl⟩ := Nat.exists_eq_add_of_le hle
    exact add_of_answered h' id next m

end Call

/-! ## The cache that the strands make up -/

/-- Whether a cache is what some calls have made of `c`, each having had its number of turns. -/
structure Woven (c : TieredCache α) (reads : String → Except StoreError (Option Bytes))
    (calls : List (Call α ε)) (taken : Nat → Nat) (c' : TieredCache α) : Prop where
  frame : c' = { c with
    hot := c'.hot
    writeBack := { c.writeBack with pending := c'.writeBack.pending }
    counters := c'.counters }
  hot : ∀ i (call : Call α ε), calls[i]? = some call →
    c'.hot.get? (c.keyFor call.query) = (call.strand c reads (taken i)).hot
  hot_of_ne : ∀ k, (∀ call ∈ calls, c.keyFor call.query ≠ k) → c'.hot.get? k = c.hot.get? k
  waits : ∀ i (call : Call α ε), calls[i]? = some call →
    c'.writeBack.pendingFor? (c.keyFor call.query) = (call.strand c reads (taken i)).waits
  waits_of_ne : ∀ k, (∀ call ∈ calls, c.keyFor call.query ≠ k) →
    c'.writeBack.pendingFor? k = c.writeBack.pendingFor? k
  counters : c'.counters = c.counters.plus (CacheStats.sum
    (fun i => (calls[i]?.map fun call => (call.strand c reads (taken i)).counted).getD .zero)
    calls.length)

namespace Woven

variable {c c₁ c₂ : TieredCache α} {reads : String → Except StoreError (Option Bytes)}
  {calls : List (Call α ε)} {taken taken' : Nat → Nat}

theorem start : Woven c reads calls (fun _ => 0) c where
  frame := rfl
  hot _ _ _ := rfl
  hot_of_ne _ _ := rfl
  waits _ _ _ := rfl
  waits_of_ne _ _ := rfl
  counters := by
    have hzero : ∀ n, CacheStats.sum (fun _ => .zero) n = .zero := by
      intro n
      induction n with
      | zero => rfl
      | succ n ih => rw [CacheStats.sum, ih]; rfl
    rw [CacheStats.sum_congr (y := fun _ => .zero), hzero]
    · rfl
    · intro i hi
      rw [List.getElem?_eq_getElem hi]
      rfl

omit [Payload α] in
/-- Different calls are about different keys. -/
theorem key_ne (hkeys : (calls.map (c.keyFor ·.query)).Nodup) {i j : Nat} {a b : Call α ε}
    (ha : calls[i]? = some a) (hb : calls[j]? = some b) (hne : i ≠ j) :
    c.keyFor a.query ≠ c.keyFor b.query := by
  intro heq
  have hi : i < calls.length := (List.getElem?_eq_some_iff.mp ha).1
  refine hne ((List.getElem?_inj (by rwa [List.length_map]) hkeys).mp ?_)
  rw [List.getElem?_map, List.getElem?_map, ha, hb]
  exact congrArg some heq

omit [Payload α] in
/-- What there is under the keys of the calls after one of them has changed what is under its own:
    `part` is what there should be for a call that has had some turns. -/
theorem view_step {β : Type} {view view' : String → β} (part : Call α ε → Nat → β)
    (hkeys : (calls.map (c.keyFor ·.query)).Nodup) {i : Nat} {call : Call α ε}
    (hcall : calls[i]? = some call) (hnext : taken' i = taken i + 1)
    (hoff : ∀ j, j ≠ i → taken' j = taken j)
    (h : ∀ (j : Nat) (other : Call α ε), calls[j]? = some other →
      view (c.keyFor other.query) = part other (taken j))
    (hself : view' (c.keyFor call.query) = part call (taken i + 1))
    (hne : ∀ k, k ≠ c.keyFor call.query → view' k = view k) (j : Nat) (other : Call α ε)
    (hother : calls[j]? = some other) : view' (c.keyFor other.query) = part other (taken' j) := by
  by_cases hj : j = i
  · subst hj
    rw [hcall] at hother
    cases hother
    rw [hnext, hself]
  · rw [hne _ (key_ne hkeys hother hcall hj), hoff j hj, h j other hother]

/-- A call takes a turn, and the others stay as they are. -/
theorem step (h : Woven c reads calls taken c₁) (hkeys : (calls.map (c.keyFor ·.query)).Nodup)
    {i : Nat} {call : Call α ε} (hcall : calls[i]? = some call) (hnext : taken' i = taken i + 1)
    (hoff : ∀ j, j ≠ i → taken' j = taken j)
    (hchange : Strand.Change (c.keyFor call.query) (call.strand c reads (taken i))
      (call.strand c reads (taken i + 1)) c₁ c₂) : Woven c reads calls taken' c₂ where
  frame := by rw [hchange.frame, h.frame]
  hot := view_step (fun call n => (call.strand c reads n).hot) hkeys hcall hnext hoff h.hot
    hchange.hot hchange.hot_of_ne
  hot_of_ne k hk := by
    rw [hchange.hot_of_ne k (hk call (List.mem_of_getElem? hcall)).symm, h.hot_of_ne k hk]
  waits := view_step (fun call n => (call.strand c reads n).waits) hkeys hcall hnext hoff h.waits
    hchange.waits hchange.waits_of_ne
  waits_of_ne k hk := by
    rw [hchange.waits_of_ne k (hk call (List.mem_of_getElem? hcall)).symm, h.waits_of_ne k hk]
  counters := by
    obtain ⟨more, hstrand, hcounters⟩ := hchange.counted
    rw [hcounters, h.counters, CacheStats.plus_assoc]
    refine congrArg _ (CacheStats.sum_of_eq_off (i := i) ?_ ?_ ?_).symm
    · exact (List.getElem?_eq_some_iff.mp hcall).1
    · intro j hj
      rw [hoff j hj]
    · rw [hcall, hnext]
      exact hstrand

/-- The cache depends on how far the calls have come, and not on their turns. -/
theorem congr (h : Woven c reads calls taken c₁) (hsame : ∀ i (call : Call α ε),
    calls[i]? = some call → call.strand c reads (taken' i) = call.strand c reads (taken i)) :
    Woven c reads calls taken' c₁ where
  frame := h.frame
  hot i call hcall := by rw [hsame i call hcall, h.hot i call hcall]
  hot_of_ne := h.hot_of_ne
  waits i call hcall := by rw [hsame i call hcall, h.waits i call hcall]
  waits_of_ne := h.waits_of_ne
  counters := by
    rw [h.counters]
    refine congrArg _ (CacheStats.sum_congr fun i hi => ?_)
    rw [List.getElem?_eq_getElem hi, Option.map_some, Option.map_some,
      hsame i _ (List.getElem?_eq_getElem hi)]

omit [Payload α] in
/-- What holds of the key of each call, and of every other key, holds of all keys. -/
theorem forall_key {P : String → Prop}
    (hcalls : ∀ (i : Nat) (call : Call α ε), calls[i]? = some call → P (c.keyFor call.query))
    (hothers : ∀ k, (∀ call ∈ calls, c.keyFor call.query ≠ k) → P k) (k : String) : P k := by
  by_cases hk : ∃ call ∈ calls, c.keyFor call.query = k
  · obtain ⟨call, hmem, rfl⟩ := hk
    obtain ⟨i, hi⟩ := List.getElem?_of_mem hmem
    exact hcalls i call hi
  · exact hothers k fun call hmem heq => hk ⟨call, hmem, heq⟩

/-- The strands leave no choice of the cache. -/
theorem eq (h : Woven c reads calls taken c₁) (h' : Woven c reads calls taken c₂) : c₁ = c₂ := by
  have hhot : ∀ k, c₁.hot.get? k = c₂.hot.get? k :=
    forall_key (fun i call hi => by rw [h.hot i call hi, h'.hot i call hi])
      fun k hk => by rw [h.hot_of_ne k hk, h'.hot_of_ne k hk]
  have hwaits : ∀ k, c₁.writeBack.pendingFor? k = c₂.writeBack.pendingFor? k :=
    forall_key (fun i call hi => by rw [h.waits i call hi, h'.waits i call hi])
      fun k hk => by rw [h.waits_of_ne k hk, h'.waits_of_ne k hk]
  have hcounters : c₁.counters = c₂.counters := h.counters.trans h'.counters.symm
  have htier : c₁.hot = c₂.hot :=
    congrArg HotTier.mk (Std.ExtTreeMap.ext_getElem? hhot)
  have hpending : c₁.writeBack.pending = c₂.writeBack.pending :=
    Std.ExtTreeMap.ext_getElem? hwaits
  rw [h.frame, h'.frame, htier, hpending, hcounters]

end Woven

end Strands

/-! ## Turns -/

namespace System

variable [Payload α] [DurableStore σ] {c : TieredCache α} {store : σ} {calls : List (Call α ε)}
  {reads : String → Except StoreError (Option Bytes)} {shown : Instant → Prop}

/-- Whether some lookups of a cache are about different keys, none of them finds a pass due, and
    what each reads does not depend on when it does: reads come to `reads`, and what can be
    decoded is filed under its own key. -/
structure Unrelated (c : TieredCache α) (store : σ)
    (reads : String → Except StoreError (Option Bytes)) (shown : Instant → Prop)
    (calls : List (Call α ε)) : Prop where
  steady : Steady store shown reads
  own : ∀ key (e : Entry α), .ofBytes (reads key) = DurableRead.found e → e.key = key
  keys : (calls.map (c.keyFor ·.query)).Nodup
  due : ∀ call ∈ calls, c.writeBack.isDue call.now = false

/-- Whether a system is where some lookups have come to together, each having had its number of
    turns, with what has happened meanwhile. -/
structure Together (c : TieredCache α) (store : σ)
    (reads : String → Except StoreError (Option Bytes)) (shown : Instant → Prop)
    (calls : List (Call α ε)) (taken : Nat → Nat) (s : System α ε σ)
    (log : List (Happening α ε)) : Prop where
  cache : ∃ c', s.slots = [⟨c', []⟩] ∧ Woven c reads calls taken c'
  store : ∃ gets, (∀ get ∈ gets, shown get.1) ∧ s.store = afterGets store gets
  next : s.next = calls.length
  task : ∀ i (call : Call α ε), calls[i]? = some call →
    s.task? i = some (call.strand c reads (taken i)).task
  task_of_le : ∀ i, calls.length ≤ i → s.task? i = none
  happened : ∀ i (call : Call α ε), calls[i]? = some call →
    log.filter (·.id == i) = call.log c reads i calls.length (taken i)
  happened_of_le : ∀ i, calls.length ≤ i → log.filter (·.id == i) = []

/-- The lookups have been started and have had no turn. -/
theorem together_ofCalls (c : TieredCache α) (store : σ)
    (reads : String → Except StoreError (Option Bytes)) (shown : Instant → Prop)
    (calls : List (Call α ε)) :
    Together c store reads shown calls (fun _ => 0) (ofCalls c store calls) [] := by
  have hstart : (ofCalls c store calls : System α ε σ).slots = [⟨c, []⟩] ∧
      (ofCalls c store calls : System α ε σ).store = store ∧
      (ofCalls c store calls : System α ε σ).next = calls.length ∧
      ∀ i, (ofCalls c store calls : System α ε σ).task? i =
        calls[i]?.map fun call => .lookup 0 (c.keyFor call.query) call.now .asking := by
    induction calls using List.reverseRecOn with
    | nil => exact ⟨rfl, rfl, rfl, fun i => Std.ExtTreeMap.getElem?_empty⟩
    | append_singleton calls call ih =>
      obtain ⟨hslots, hstore, hnext, htask⟩ := ih
      have hadd : (ofCalls c store (calls ++ [call]) : System α ε σ) =
          ((ofCalls c store calls : System α ε σ).add
            (.lookup 0 (c.keyFor call.query) call.now .asking)).2 := by
        rw [ofCalls, List.map_append, List.map_singleton, run_concat]
        show (((ofCalls c store calls).addLookup 0 call.query call.now).map (·.2)).getD _ = _
        rw [addLookup, cache?, hslots]
        rfl
      rw [hadd]
      refine ⟨hslots, hstore, ?_, fun i => ?_⟩
      · show (ofCalls c store calls : System α ε σ).next + 1 = _
        rw [hnext, List.length_append]
        rfl
      · rw [task?_add, hnext, htask]
        by_cases hi : calls.length = i
        · rw [if_pos hi, ← hi, List.getElem?_concat_length]
          rfl
        · rw [if_neg hi]
          by_cases hlt : i < calls.length
          · rw [List.getElem?_append_left hlt]
          · rw [List.getElem?_eq_none (by omega),
              List.getElem?_eq_none (by rw [List.length_append]; show _ + 1 ≤ _; omega)]
  obtain ⟨hslots, hstore, hnext, htask⟩ := hstart
  refine ⟨⟨c, hslots, .start⟩, ⟨[], fun _ hget => absurd hget List.not_mem_nil, hstore⟩, hnext,
    ?_, ?_, fun _ _ _ => rfl, fun _ _ => rfl⟩
  · intro i call hcall
    rw [htask, hcall]
    rfl
  · intro i hi
    rw [htask, List.getElem?_eq_none hi]
    rfl

/-- How far the calls have come is all that matters of their turns. -/
theorem Together.congr {taken taken' : Nat → Nat} {s : System α ε σ} {log : List (Happening α ε)}
    (h : Together c store reads shown calls taken s log)
    (hsame : ∀ i (call : Call α ε), calls[i]? = some call →
      call.strand c reads (taken' i) = call.strand c reads (taken i) ∧
        call.log c reads i calls.length (taken' i) = call.log c reads i calls.length (taken i)) :
    Together c store reads shown calls taken' s log := by
  obtain ⟨c', hslots, hwoven⟩ := h.cache
  refine ⟨⟨c', hslots, hwoven.congr fun i call hi => (hsame i call hi).1⟩, h.store, h.next,
    ?_, h.task_of_le, ?_, h.happened_of_le⟩
  · intro i call hcall
    rw [(hsame i call hcall).1, h.task i call hcall]
  · intro i call hcall
    rw [(hsame i call hcall).2, h.happened i call hcall]

/-- What one task does is not seen among what another one does. -/
theorem filter_news {s : System α ε σ} {i : Nat} {t : Task α ε} (ht : s.task? i = some t)
    (clock : Instant) (outcome : Option (Except ε α)) (j : Nat) :
    (s.news (.step clock outcome i)).filter (·.id == j) =
      if i = j then s.news (.step clock outcome i) else [] := by
  have hid : ∀ x ∈ s.news (.step clock outcome i), x.id = i := (step_turn ht).id_of_mem
  by_cases hj : i = j
  · rw [if_pos hj, List.filter_eq_self]
    intro x hx
    simpa [hj] using hid x hx
  · rw [if_neg hj, List.filter_eq_nil_iff]
    intro x hx
    rw [hid x hx]
    simpa using hj

/-- A call takes a turn. -/
theorem Together.turn {taken taken' : Nat → Nat} {s : System α ε σ} {log : List (Happening α ε)}
    (h : Together c store reads shown calls taken s log)
    (hfree : Unrelated c store reads shown calls) {i : Nat} {clock : Instant} (hshown : shown clock)
    (hnext : taken' i = taken i + 1) (hoff : ∀ j, j ≠ i → taken' j = taken j) :
    Together c store reads shown calls taken' (s.step clock (calls[i]?.map (·.outcome)) i)
      (log ++ s.news (.step clock (calls[i]?.map (·.outcome)) i)) := by
  rcases hcall : calls[i]? with _ | call
  · -- there is no such call
    have hnone := h.task_of_le i (List.getElem?_eq_none_iff.mp hcall)
    have hidle : s.step clock none i = s := by simp only [step, hnone]
    have hquiet : s.news (.step clock none i) = [] := by simp only [news, hnone]
    rw [Option.map_none, hidle, hquiet, List.append_nil]
    refine h.congr fun j other hother => ?_
    have hj : j ≠ i := by
      rintro rfl
      rw [hcall] at hother
      cases hother
    rw [hoff j hj]
    exact ⟨rfl, rfl⟩
  obtain ⟨c', hslots, hwoven⟩ := h.cache
  obtain ⟨gets, hgets, hstore⟩ := h.store
  have hc : s.cache? 0 = some c' := by rw [cache?, hslots]; rfl
  have hpolicy : c'.policy = c.policy := by rw [hwoven.frame]
  have ht := h.task i call hcall
  have hstep := step_strand clock call.outcome ht (call.strand_onCourse _) hc
    (hwoven.hot i call hcall) (hwoven.waits i call hcall)
    (by rw [hwoven.frame]; exact hfree.due call (List.mem_of_getElem? hcall))
    (by rw [hstore, hfree.steady gets hgets clock _ hshown]) (hfree.own _)
  rw [hpolicy] at hstep
  rw [Option.map_some]
  rcases hstep with ⟨hidle, hstays⟩ | ⟨c'', store', hs, hchange, hreads⟩
  · -- the call has been answered
    rw [news_idle ht hidle, hidle, List.append_nil]
    refine h.congr fun j other hother => ?_
    by_cases hj : j = i
    · subst hj
      rw [hcall] at hother
      cases hother
      have hlast : call.strand c reads (taken j + 1) = call.strand c reads (taken j) := hstays
      rw [hnext, Call.log, hlast, news_self, List.append_nil]
      exact ⟨rfl, rfl⟩
    · rw [hoff j hj]
      exact ⟨rfl, rfl⟩
  have hnews := news_step ht hs
  have hfilter := filter_news ht clock (some call.outcome)
  rw [hnews] at hfilter ⊢
  rw [hs]
  constructor
  case cache =>
    refine ⟨c'', ?_, hwoven.step hfree.keys hcall hnext hoff hchange⟩
    show (s.setCache 0 c'').slots = _
    rw [setCache, hslots]
    rfl
  case store =>
    rcases hreads with rfl | rfl
    · exact ⟨gets, hgets, hstore⟩
    · refine ⟨gets ++ [(clock, c.keyFor call.query)], ?_, ?_⟩
      · intro get hget
        rcases List.mem_append.mp hget with hget | hget
        · exact hgets get hget
        · rw [List.mem_singleton.mp hget]
          exact hshown
      · show (DurableStore.get s.store clock _).2 = _
        rw [hstore, afterGets, afterGets, List.foldl_append]
        rfl
  case next => exact h.next
  case task =>
    intro j other hother
    rw [task?_setTask]
    by_cases hj : i = j
    · subst hj
      rw [hcall] at hother
      cases hother
      rw [if_pos rfl, hnext]
      rfl
    · rw [if_neg hj, hoff j (Ne.symm hj)]
      exact h.task j other hother
  case task_of_le =>
    intro j hj
    have hlt : i < calls.length := (List.getElem?_eq_some_iff.mp hcall).1
    rw [task?_setTask, if_neg (by omega)]
    exact h.task_of_le j hj
  case happened =>
    intro j other hother
    rw [List.filter_append, hfilter, h.happened j other hother]
    by_cases hj : i = j
    · subst hj
      rw [hcall] at hother
      cases hother
      rw [if_pos rfl, hnext, Call.log, h.next]
      rfl
    · rw [if_neg hj, hoff j (Ne.symm hj), List.append_nil]
  case happened_of_le =>
    intro j hj
    have hlt : i < calls.length := (List.getElem?_eq_some_iff.mp hcall).1
    rw [List.filter_append, hfilter, h.happened_of_le j hj, if_neg (by omega), List.append_nil]

/-- In whatever order some calls take turns, each has come as far as its own turns take it. -/
theorem together_steps (h : Unrelated c store reads shown calls) {order : List (Nat × Instant)}
    (hshown : ∀ turn ∈ order, shown turn.2) :
    Together c store reads shown calls (fun i => order.countP (·.1 == i))
      ((ofCalls c store calls).run (steps calls order))
      ((ofCalls c store calls).history (steps calls order)) := by
  induction order using List.reverseRecOn with
  | nil => exact together_ofCalls c store reads shown calls
  | append_singleton order turn ih =>
    have hbefore := ih fun t ht => hshown t (List.mem_append_left _ ht)
    have hevents : (steps calls (order ++ [turn]) : List (Event α ε σ)) =
        steps calls order ++ [.step turn.2 (calls[turn.1]?.map (·.outcome)) turn.1] :=
      List.map_append
    rw [hevents, run_concat, history_concat]
    have hlast := hshown turn (List.mem_append_right _ (List.mem_singleton_self turn))
    refine hbefore.turn h hlast ?_ ?_
    · rw [List.countP_append, List.countP_singleton, if_pos (beq_self_eq_true _)]
    · intro j hj
      rw [List.countP_append, List.countP_singleton, if_neg (by simpa using Ne.symm hj),
        Nat.add_zero]

/-! ## Any two orders -/

/-- What two runs of `n` lookups have in common: the answers, what each lookup has done, the calls
    of the provider among it, and the cache with its hot entries, the writes that wait, and its
    statistics. -/
structure Agree (n : Nat) (s s' : System α ε σ) (log log' : List (Happening α ε)) : Prop where
  answers : ∀ i < n, ∃ answer,
    s.task? i = some (.answered answer) ∧ s'.task? i = some (.answered answer)
  happened : ∀ i, log.filter (·.id == i) = log'.filter (·.id == i)
  calls : ∀ i, .called i ∈ log ↔ .called i ∈ log'
  cache : ∃ c', s.cache? 0 = some c' ∧ s'.cache? 0 = some c'

/-- Where each lookup is over, it has been answered. -/
theorem Together.answered {taken : Nat → Nat} {s : System α ε σ} {log : List (Happening α ε)}
    (h : Together c store reads shown calls taken s log) {i : Nat} {call : Call α ε}
    (hcall : calls[i]? = some call) (hover : s.isOver i = true) :
    ∃ answer, (call.strand c reads (taken i)).task = .answered answer := by
  rw [isOver, h.task i call hcall] at hover
  exact Call.answered_of_isOver hover

/-- A lookup that has had five turns is over. -/
theorem Together.isOver_of_five_le {taken : Nat → Nat} {s : System α ε σ}
    {log : List (Happening α ε)} (h : Together c store reads shown calls taken s log) {i : Nat}
    {call : Call α ε} (hcall : calls[i]? = some call) (hfive : 5 ≤ taken i) :
    s.isOver i = true := by
  obtain ⟨answer, hanswer⟩ : ∃ answer, (call.strand c reads (taken i)).task = .answered answer :=
    Call.answered_of_five_le hfive
  rw [isOver, h.task i call hcall, hanswer]
  rfl

/-- Two systems in which all lookups are over agree. -/
theorem Together.agree {taken taken' : Nat → Nat} {s s' : System α ε σ}
    {log log' : List (Happening α ε)} (h : Together c store reads shown calls taken s log)
    (h' : Together c store reads shown calls taken' s' log')
    (hover : ∀ i < calls.length, s.isOver i = true)
    (hover' : ∀ i < calls.length, s'.isOver i = true) : Agree calls.length s s' log log' := by
  have hsame : ∀ i (call : Call α ε), calls[i]? = some call →
      call.strand c reads (taken i) = call.strand c reads (taken' i) ∧
        call.log c reads i calls.length (taken i) = call.log c reads i calls.length (taken' i) := by
    intro i call hcall
    have hi := (List.getElem?_eq_some_iff.mp hcall).1
    obtain ⟨a, ha⟩ := h.answered hcall (hover i hi)
    obtain ⟨a', ha'⟩ := h'.answered hcall (hover' i hi)
    exact Call.eq_of_answered ha ha' i calls.length
  have hmoved := h'.congr hsame
  have hhappened : ∀ i, log.filter (·.id == i) = log'.filter (·.id == i) := by
    intro i
    rcases hcall : calls[i]? with _ | call
    · have hi := List.getElem?_eq_none_iff.mp hcall
      rw [h.happened_of_le i hi, h'.happened_of_le i hi]
    · rw [h.happened i call hcall, hmoved.happened i call hcall]
  constructor
  case answers =>
    intro i hi
    have hcall := List.getElem?_eq_getElem hi
    obtain ⟨answer, hanswer⟩ := h.answered hcall (hover i hi)
    exact ⟨answer, by rw [h.task i _ hcall, hanswer], by rw [hmoved.task i _ hcall, hanswer]⟩
  case happened => exact hhappened
  case calls =>
    intro i
    have hmem : ∀ l : List (Happening α ε), .called i ∈ l ↔ .called i ∈ l.filter (·.id == i) :=
      fun l => by simp [List.mem_filter, Happening.id]
    rw [hmem log, hmem log', hhappened]
  case cache =>
    obtain ⟨c₁, hslots, hwoven⟩ := h.cache
    obtain ⟨c₂, hslots', hwoven'⟩ := hmoved.cache
    rw [hwoven.eq hwoven'] at hslots
    exact ⟨c₂, by rw [cache?, hslots]; rfl, by rw [cache?, hslots']; rfl⟩

/-- Lookups of different keys, over a store whose reads come to the same at all times and with no
    pass due, can be carried out in any order: five turns bring each of them to its answer, and any
    two orders in which all of them come to their answers agree. -/
theorem lookups_commute (h : Unrelated c store reads shown calls) :
    (∀ order : List (Nat × Instant), (∀ turn ∈ order, shown turn.2) →
      (∀ i < calls.length, 5 ≤ order.countP (·.1 == i)) →
      ∀ i < calls.length, ((ofCalls c store calls).run (steps calls order)).isOver i = true) ∧
    ∀ order order' : List (Nat × Instant),
      (∀ turn ∈ order, shown turn.2) → (∀ turn ∈ order', shown turn.2) →
      (∀ i < calls.length, ((ofCalls c store calls).run (steps calls order)).isOver i = true) →
      (∀ i < calls.length, ((ofCalls c store calls).run (steps calls order')).isOver i = true) →
      Agree calls.length ((ofCalls c store calls).run (steps calls order))
        ((ofCalls c store calls).run (steps calls order'))
        ((ofCalls c store calls).history (steps calls order))
        ((ofCalls c store calls).history (steps calls order')) := by
  refine ⟨fun order hshown hfive i hi => ?_, fun order order' hshown hshown' hover hover' =>
    (together_steps h hshown).agree (together_steps h hshown') hover hover'⟩
  exact (together_steps h hshown).isOver_of_five_le (List.getElem?_eq_getElem hi) (hfive i hi)

/-! ### Four lookups -/

/-- Whether nothing in a store has expired by what the clock shows. -/
def AllLive (m : MemoryStore) (clock : Instant) : Prop :=
  ∀ (key : String) (v : StoredValue), m.values[key]? = some v → v.isExpired clock = false

/-- A store in memory is steady as long as nothing in it has expired. -/
theorem steady_memory (m : MemoryStore) :
    Steady m (AllLive m) fun key => .ok (m.values[key]?.map (·.value)) := by
  have hget : ∀ clock key, AllLive m clock →
      m.get clock key = (m.values[key]?.map (·.value), m) := by
    intro clock key hlive
    unfold MemoryStore.get MemoryStore.check
    rcases hv : m.values[key]? with _ | v
    · rfl
    · simp only [hlive key v hv]
      rfl
  have hafter : ∀ gets : List (Instant × String), (∀ get ∈ gets, AllLive m get.1) →
      afterGets m gets = m := by
    intro gets hgets
    induction gets with
    | nil => rfl
    | cons get gets ih =>
      have hfirst : (DurableStore.get m get.1 get.2).2 = m :=
        congrArg Prod.snd (hget get.1 get.2 (hgets get List.mem_cons_self))
      rw [afterGets, List.foldl_cons, hfirst]
      exact ih fun g hg => hgets g (List.mem_cons_of_mem get hg)
  intro gets hgets clock key hclock
  rw [hafter gets hgets]
  exact congrArg (fun p => Except.ok p.1) (hget clock key hclock)

/-- Lookups of a durable entry, of a hot one, and of two that have to be fetched. -/
def fourCalls : List (Call String String) :=
  [⟨.ofSymbols ["a"], ⟨1001, 0⟩, .ok "x"⟩, ⟨.ofSymbols ["b"], ⟨1001, 0⟩, .ok "x"⟩,
    ⟨.ofSymbols ["c"], ⟨1001, 0⟩, .ok "c"⟩, ⟨.ofSymbols ["d"], ⟨1001, 0⟩, .error "down"⟩]

/-- One lookup after the other. -/
def inTurn : List (Nat × Instant) :=
  (List.range 20).map fun n => (n / 5, ⟨1001, 0⟩)

/-- A step of each lookup, and then another one of each, the last lookup first. -/
def inRounds : List (Nat × Instant) :=
  (List.range 20).map fun n => (3 - n % 4, ⟨1001, 0⟩)

/-- What is filed under the key of `A`, and that nothing else is. -/
theorem values_filed (key : String) : (TieredCache.filed "n:A").values[key]? =
    if "n:A" = key then (TieredCache.filed "n:A").values["n:A"]? else none := by
  unfold TieredCache.filed MemoryStore.put MemoryStore.empty
  simp [Std.ExtTreeMap.getElem?_insert]

theorem unrelated_fourCalls : Unrelated TieredCache.warm (TieredCache.filed "n:A")
    (fun key => .ok ((TieredCache.filed "n:A").values[key]?.map (·.value)))
    (AllLive (TieredCache.filed "n:A")) fourCalls := by
  refine ⟨steady_memory _, fun key e he => ?_, by decide +kernel, by decide +kernel⟩
  rw [values_filed] at he
  by_cases hkey : "n:A" = key
  · rw [if_pos hkey] at he
    have hread : (.ofBytes (.ok ((TieredCache.filed "n:A").values["n:A"]?.map (·.value))) :
        DurableRead String) = .found ⟨"n:A", "a", ⟨1000, 0⟩⟩ := by decide +kernel
    rw [hread] at he
    cases he
    exact hkey
  · rw [if_neg hkey] at he
    cases he

theorem allLive_filed : AllLive (TieredCache.filed "n:A") ⟨1001, 0⟩ := by
  intro key v hv
  rw [values_filed] at hv
  split at hv
  · have hlive : (TieredCache.filed "n:A").values["n:A"]?.all
        (fun v => !v.isExpired ⟨1001, 0⟩) = true := by decide +kernel
    rw [hv] at hlive
    simpa using hlive
  · cases hv

/-- Both orders bring the four lookups to their answers, and they agree. -/
theorem lookups_commute_four :
    Unrelated TieredCache.warm (TieredCache.filed "n:A")
      (fun key => .ok ((TieredCache.filed "n:A").values[key]?.map (·.value)))
      (AllLive (TieredCache.filed "n:A")) fourCalls ∧
    Agree 4
      ((ofCalls TieredCache.warm (TieredCache.filed "n:A") fourCalls).run (steps fourCalls inTurn))
      ((ofCalls TieredCache.warm (TieredCache.filed "n:A") fourCalls).run
        (steps fourCalls inRounds))
      ((ofCalls TieredCache.warm (TieredCache.filed "n:A") fourCalls).history
        (steps fourCalls inTurn))
      ((ofCalls TieredCache.warm (TieredCache.filed "n:A") fourCalls).history
        (steps fourCalls inRounds)) := by
  have hshown : ∀ turn ∈ inTurn, AllLive (TieredCache.filed "n:A") turn.2 := by
    intro turn ht
    obtain ⟨n, -, rfl⟩ := List.mem_map.mp ht
    exact allLive_filed
  have hshown' : ∀ turn ∈ inRounds, AllLive (TieredCache.filed "n:A") turn.2 := by
    intro turn ht
    obtain ⟨n, -, rfl⟩ := List.mem_map.mp ht
    exact allLive_filed
  obtain ⟨hover, hagree⟩ := lookups_commute unrelated_fourCalls
  exact ⟨unrelated_fourCalls, hagree inTurn inRounds hshown hshown'
    (hover inTurn hshown (by decide)) (hover inRounds hshown' (by decide))⟩

end System

end MarketCache
