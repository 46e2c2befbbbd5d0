import MarketCache.Proofs.WriteBack.Batch
import MarketCache.Proofs.WriteBack.Journal

/-!
# No recorded write is lost or taken twice

A write-back is used in any order: entries are recorded, batches are taken, due or not, and
each batch is written once, perhaps long after it was taken. A journal is kept beside it, and
the invariant `Balanced` says that the write-back and its batches are what the journal makes
of them.

Main definitions:
* `WriteBack.Work`: a write-back over a store, with its batches and its journal.
* `WriteBack.Work.Balanced`: the invariant.
* `WriteBack.Work.Conserved`: what follows from it for the writes that were recorded.

Results:
* `Balanced.act`: every action keeps the invariant.
* `conserved_run`: no run loses a write or takes it twice.
-/

namespace MarketCache.WriteBack

variable {α σ : Type}

/-- What is done with a write-back. -/
inductive Action (α : Type) where
  /-- An entry is recorded. -/
  | record (e : Entry α) (now : Instant)
  /-- A batch is taken if a pass is due. -/
  | takeDue (now : Instant)
  /-- A batch is taken. -/
  | takeAll (now : Instant)
  /-- The batch of a number is written, unless it has been written before. -/
  | persist (batch : Nat) (clock : Instant)

/-- The write that an action records. -/
def Action.write? : Action α → Option (PendingWrite α)
  | .record e now => some ⟨e, now⟩
  | _ => none

/-- What became of a batch. -/
inductive Outcome where
  | unwritten
  | counted (report : FlushReport)
  /-- The store broke down, and the report is lost. -/
  | lost

/-- A batch that was taken. -/
structure Batch (α : Type) where
  writes : List (PendingWrite α)
  outcome : Outcome

/-- The writes of a batch that the counters know of. -/
def Batch.counted (b : Batch α) : Nat :=
  match b.outcome with
  | .counted _ => b.writes.length
  | _ => 0

/-- A write-back over a store, with the batches that were taken from it, the first one first,
    and its journal. -/
structure Work (α σ : Type) where
  writeBack : WriteBack α
  store : σ
  batches : List (Batch α)
  journal : List (Mark α)

namespace Work

/-- A new write-back. -/
def start (interval ttl : UInt64) (startedAt : Instant) (store : σ) : Work α σ :=
  ⟨.start interval ttl startedAt, store, [], []⟩

/-- A batch was taken. -/
def take (s : Work α σ) (taken : List (PendingWrite α) × WriteBack α) : Work α σ :=
  { s with
    writeBack := taken.2
    batches := s.batches ++ [⟨taken.1, .unwritten⟩]
    journal := s.journal ++ [.taken] }

/-- One action. -/
def act [Payload α] [DurableStore σ] (s : Work α σ) : Action α → Work α σ
  | .record e now =>
    { s with
      writeBack := s.writeBack.record e now
      journal := s.journal ++ [.recorded ⟨e, now⟩] }
  | .takeDue now =>
    match s.writeBack.takeDue? now with
    | some taken => s.take taken
    | none => s
  | .takeAll now => s.take (s.writeBack.takeAll now)
  | .persist n clock =>
    match s.batches[n]? with
    | some ⟨writes, .unwritten⟩ =>
      let (report, writeBack, store) := s.writeBack.persist writes clock s.store
      { s with
        writeBack, store
        batches := s.batches.set n ⟨writes, report.elim .lost .counted⟩ }
    | _ => s

/-- Some actions, one after the other. -/
def run [Payload α] [DurableStore σ] (s : Work α σ) (actions : List (Action α)) : Work α σ :=
  actions.foldl act s

/-- The writes of the batch of a number. -/
def batch (s : Work α σ) (n : Nat) : List (PendingWrite α) :=
  (s.batches[n]?.map (·.writes)).getD []

end Work

/-! ## What a pass reports -/

section Report

variable [Payload α] [DurableStore σ]

theorem tally_sum (r : FlushReport) {a : Attempt} (h : a ≠ .aborted) :
    (r.tally a).written + (r.tally a).failed = r.written + r.failed + 1 := by
  cases a with
  | written => simp only [FlushReport.tally]; omega
  | failed => simp only [FlushReport.tally]; omega
  | aborted => exact absurd rfl h

/-- A pass that comes to its end has counted each write once. -/
theorem writeAll_sum {ttl : UInt64} {now : Instant} {batch : List (PendingWrite α)}
    {r r' : FlushReport} {store store' : σ}
    (h : Pass.writeAll ttl now batch r store = (some r', store')) :
    r'.written + r'.failed = r.written + r.failed + batch.length := by
  induction batch generalizing r store with
  | nil =>
    obtain ⟨hr, -⟩ := Prod.mk.inj h
    rw [Option.some.inj hr]
    rfl
  | cons w batch ih =>
    rcases hw : w.attempt ttl now store with ⟨a, store₁⟩
    simp only [Pass.writeAll, hw] at h
    by_cases ha : a = .aborted
    · rw [if_pos ha] at h
      simp at h
    · rw [if_neg ha] at h
      have hrest := ih h
      rw [tally_sum r ha] at hrest
      rw [hrest, List.length_cons]
      omega

/-- Writing a batch leaves what waits as it is, and counts each of its writes once unless the
    store breaks down. -/
theorem persist_eq (w : WriteBack α) (batch : List (PendingWrite α)) (clock : Instant)
    (store : σ) :
    (∃ r store', w.persist batch clock store = (some r, w.settle r, store') ∧
      r.written + r.failed = batch.length) ∨
      ∃ store', w.persist batch clock store = (none, w, store') := by
  unfold persist
  cases hrun : (Pass.ofBatch batch).run w.ttlSecs clock store with
  | mk report store' =>
    cases report with
    | none => exact Or.inr ⟨store', rfl⟩
    | some r =>
      refine Or.inl ⟨r, store', rfl, ?_⟩
      have hsum := writeAll_sum hrun
      simp only [Pass.ofBatch] at hsum
      omega

end Report

/-! ## The invariant -/

/-- If what waits under each key is what the journal makes of it, then what waits is what the
    journal lets wait. -/
theorem writesAt_waiting_perm {w : WriteBack α} {j : List (Mark α)} (hkeyed : w.Keyed)
    (hlatest : ∀ key, w.pendingFor? key = Journal.latest key j) :
    (Journal.writesAt .waiting j).Perm w.waiting := by
  refine (List.perm_ext_iff_of_nodup ?_ ?_).mpr fun v => ?_
  · exact (Journal.nodup_keys_writesAt_waiting j).of_map _
  · exact (nodup_keys_waiting hkeyed).of_map _
  · rw [Journal.mem_writesAt_waiting_iff, mem_waiting_iff hkeyed, hlatest]

namespace Work

/-- Whether the write-back and the batches are what the journal makes of them. -/
structure Balanced (s : Work α σ) : Prop where
  keyed : s.writeBack.Keyed
  latest : ∀ key, s.writeBack.pendingFor? key = Journal.latest key s.journal
  takes : Journal.takes s.journal = s.batches.length
  taken : ∀ n, (Journal.writesAt (.taken n) s.journal).Perm (s.batch n)
  distinct : ∀ n, ((s.batch n).map (·.key)).Nodup
  increasing : ∀ n, (s.batch n).Pairwise PendingWrite.Before
  counted : s.writeBack.flushedEntries + s.writeBack.flushFailures =
    s.batches.foldr (fun b total => b.counted + total) 0

theorem balanced_start (interval ttl : UInt64) (startedAt : Instant) (store : σ) :
    (start interval ttl startedAt store : Work α σ).Balanced where
  keyed := keyed_start interval ttl startedAt
  latest key := pendingFor?_start interval ttl startedAt key
  takes := rfl
  taken _ := List.Perm.refl []
  distinct _ := List.nodup_nil
  increasing _ := List.Pairwise.nil
  counted := rfl

/-- What the journal lets wait is what waits. -/
theorem Balanced.waiting_perm {s : Work α σ} (h : s.Balanced) :
    (Journal.writesAt .waiting s.journal).Perm s.writeBack.waiting :=
  writesAt_waiting_perm h.keyed h.latest

/-! ### Recording -/

theorem Balanced.recorded {s : Work α σ} (h : s.Balanced) (e : Entry α) (now : Instant) :
    ({ s with
        writeBack := s.writeBack.record e now
        journal := s.journal ++ [.recorded ⟨e, now⟩] } : Work α σ).Balanced where
  keyed := h.keyed.record e now
  latest key := by
    rw [pendingFor?_record, Journal.latest_append_recorded, h.latest]
  takes := by
    rw [Journal.takes_append, h.takes]
    rfl
  taken n := by
    rw [Journal.writesAt_taken_append_recorded]
    exact h.taken n
  distinct := h.distinct
  increasing := h.increasing
  counted := h.counted

/-! ### Taking -/

theorem batch_take (s : Work α σ) (taken : List (PendingWrite α) × WriteBack α) (n : Nat) :
    (s.take taken).batch n = if n = s.batches.length then taken.1 else s.batch n := by
  unfold batch take
  by_cases hn : n = s.batches.length
  · rw [if_pos hn, hn, List.getElem?_concat_length]
    rfl
  · rw [if_neg hn]
    by_cases hlt : n < s.batches.length
    · rw [List.getElem?_append_left hlt]
    · have hge : s.batches.length + 1 ≤ n := by omega
      rw [List.getElem?_eq_none (by rw [List.length_append]; exact hge),
        List.getElem?_eq_none (by omega)]

theorem counted_concat (batches : List (Batch α)) (b : Batch α) :
    (batches ++ [b]).foldr (fun b total => b.counted + total) 0 =
      batches.foldr (fun b total => b.counted + total) 0 + b.counted := by
  induction batches with
  | nil => exact Nat.add_comm _ _
  | cons b' batches ih =>
    rw [List.cons_append, List.foldr_cons, ih, List.foldr_cons]
    omega

theorem Balanced.took {s : Work α σ} (h : s.Balanced) (now : Instant) :
    (s.take (s.writeBack.takeAll now)).Balanced where
  keyed := keyed_takeAll s.writeBack now
  latest key := by
    unfold take
    rw [pendingFor?_takeAll, Journal.latest_append_taken]
  takes := by
    unfold take
    rw [Journal.takes_append, h.takes, List.length_append]
    rfl
  taken n := by
    rw [batch_take, take, Journal.writesAt_taken_append_taken, h.takes]
    by_cases hn : n = s.batches.length
    · rw [if_pos hn, if_pos hn]
      exact h.waiting_perm.trans s.writeBack.batch_perm_waiting.symm
    · rw [if_neg hn, if_neg hn]
      exact h.taken n
  distinct n := by
    rw [batch_take]
    split
    · exact nodup_keys_batch h.keyed
    · exact h.distinct n
  increasing n := by
    rw [batch_take]
    split
    · exact batch_pairwise_before h.keyed
    · exact h.increasing n
  counted := by
    unfold take
    rw [counted_concat]
    exact h.counted

/-! ### Writing -/

theorem batch_set {s : Work α σ} {n : Nat} {b : Batch α} (h : s.batches[n]? = some b)
    (w : WriteBack α) (store : σ) (o : Outcome) (m : Nat) :
    ({ s with writeBack := w, store, batches := s.batches.set n ⟨b.writes, o⟩ } :
      Work α σ).batch m = s.batch m := by
  unfold batch
  by_cases hm : n = m
  · have hlt : n < s.batches.length := (List.getElem?_eq_some_iff.mp h).1
    rw [← hm, List.getElem?_set_self hlt, h]
    rfl
  · rw [List.getElem?_set_ne hm]

/-- A batch that comes to be counted adds its writes. -/
theorem counted_set {batches : List (Batch α)} {n : Nat} {b : Batch α}
    (h : batches[n]? = some b) (hb : b.counted = 0) (b' : Batch α) :
    (batches.set n b').foldr (fun b total => b.counted + total) 0 =
      batches.foldr (fun b total => b.counted + total) 0 + b'.counted := by
  induction batches generalizing n with
  | nil => cases h
  | cons b₀ batches ih =>
    cases n with
    | zero =>
      rw [List.getElem?_cons_zero] at h
      cases h
      rw [List.set_cons_zero, List.foldr_cons, List.foldr_cons, hb]
      omega
    | succ n =>
      rw [List.getElem?_cons_succ] at h
      rw [List.set_cons_succ, List.foldr_cons, ih h, List.foldr_cons]
      omega

theorem Balanced.persisted [Payload α] [DurableStore σ] {s : Work α σ} (h : s.Balanced) {n : Nat}
    {writes : List (PendingWrite α)} (hn : s.batches[n]? = some ⟨writes, .unwritten⟩)
    (clock : Instant) : (s.act (.persist n clock)).Balanced := by
  have hset := batch_set hn
  rcases persist_eq s.writeBack writes clock s.store with
    ⟨r, store', hrun, hsum⟩ | ⟨store', hrun⟩
  · simp only [act, hn, hrun, Option.elim_some]
    refine ⟨h.keyed.settle r, h.latest, ?_, ?_, ?_, ?_, ?_⟩
    · rw [List.length_set]
      exact h.takes
    · intro m
      rw [hset]
      exact h.taken m
    · intro m
      rw [hset]
      exact h.distinct m
    · intro m
      rw [hset]
      exact h.increasing m
    · rw [counted_set hn rfl, ← h.counted]
      show _ + r.written + (_ + r.failed) = _ + writes.length
      omega
  · -- the counters know nothing of a batch whose report is lost
    simp only [act, hn, hrun, Option.elim_none]
    refine ⟨h.keyed, h.latest, ?_, ?_, ?_, ?_, ?_⟩
    · rw [List.length_set]
      exact h.takes
    · intro m
      rw [hset]
      exact h.taken m
    · intro m
      rw [hset]
      exact h.distinct m
    · intro m
      rw [hset]
      exact h.increasing m
    · rw [counted_set hn rfl]
      exact h.counted

/-! ### Runs -/

/-- Every action keeps the balance. -/
theorem Balanced.act [Payload α] [DurableStore σ] {s : Work α σ} (h : s.Balanced)
    (action : Action α) : (s.act action).Balanced := by
  cases action with
  | record e now => exact h.recorded e now
  | takeDue now =>
    rw [Work.act, WriteBack.takeDue?]
    by_cases hdue : s.writeBack.isDue now = true
    · rw [if_pos hdue]
      exact h.took now
    · rw [if_neg hdue]
      exact h
  | takeAll now => exact h.took now
  | persist n clock =>
    rcases hn : s.batches[n]? with _ | ⟨writes, _ | r | _⟩
    · simp only [Work.act, hn]
      exact h
    · exact h.persisted hn clock
    · simp only [Work.act, hn]
      exact h
    · simp only [Work.act, hn]
      exact h

theorem Balanced.run [Payload α] [DurableStore σ] {s : Work α σ} (h : s.Balanced)
    (actions : List (Action α)) : (s.run actions).Balanced := by
  induction actions generalizing s with
  | nil => exact h
  | cons action actions ih => exact ih (h.act action)

/-! ## Conservation -/

/-- Whether each of the writes that were recorded is in one place, and the write-back and its
    batches are those places. -/
structure Conserved (s : Work α σ) (recorded : List (PendingWrite α)) : Prop where
  /-- Each recorded write has one place. -/
  placed : (Journal.places s.journal).map (·.1) = recorded
  /-- A write is superseded if a later one of its key came before any take. -/
  superseded : ∀ before w after, s.journal = before ++ .recorded w :: after →
    ∃ place,
      (Journal.places s.journal)[(before.filterMap Mark.write?).length]? = some (w, place) ∧
      (place = .superseded ↔ ∃ between v rest,
        after = between ++ .recorded v :: rest ∧ v.key = w.key ∧ Journal.takes between = 0)
  /-- What waits are the writes whose place is to wait. -/
  waiting : (Journal.writesAt .waiting s.journal).Perm s.writeBack.waiting
  /-- A batch has the writes whose place it is. -/
  taken : ∀ n, (Journal.writesAt (.taken n) s.journal).Perm (s.batch n)
  takes : Journal.takes s.journal = s.batches.length
  distinctWaiting : (s.writeBack.waiting.map (·.key)).Nodup
  distinct : ∀ b ∈ s.batches, (b.writes.map (·.key)).Nodup
  /-- The last write of a key since the last take waits under it. -/
  latest : ∀ key, s.writeBack.pendingFor? key = Journal.latest key s.journal
  increasing : ∀ b ∈ s.batches, b.writes.Pairwise PendingWrite.Before
  /-- The order in which the writes of a batch were found made no difference. -/
  sorted : ∀ b ∈ s.batches, ∀ found : List (PendingWrite α), found.Perm b.writes →
    found.mergeSort PendingWrite.precedes = b.writes
  /-- Once the reports of all batches have come, the counters add up to all their writes. -/
  counted : (∀ b ∈ s.batches, ∃ report, b.outcome = .counted report) →
    s.writeBack.flushedEntries + s.writeBack.flushFailures =
      s.batches.foldr (fun b total => b.writes.length + total) 0

theorem batch_of_mem {s : Work α σ} {b : Batch α} (h : b ∈ s.batches) :
    ∃ n, s.batch n = b.writes := by
  obtain ⟨n, hn⟩ := List.mem_iff_getElem?.mp h
  refine ⟨n, ?_⟩
  unfold batch
  rw [hn]
  rfl

theorem counted_of_all {batches : List (Batch α)}
    (h : ∀ b ∈ batches, ∃ report, b.outcome = .counted report) :
    batches.foldr (fun b total => b.counted + total) 0 =
      batches.foldr (fun b total => b.writes.length + total) 0 := by
  induction batches with
  | nil => rfl
  | cons b batches ih =>
    obtain ⟨report, hb⟩ := h b List.mem_cons_self
    have hcounted : b.counted = b.writes.length := by
      unfold Batch.counted
      rw [hb]
    rw [List.foldr_cons, List.foldr_cons, hcounted,
      ih fun b' hb' => h b' (List.mem_cons_of_mem b hb')]

theorem Balanced.conserved {s : Work α σ} (h : s.Balanced) :
    s.Conserved (s.journal.filterMap Mark.write?) where
  placed := Journal.map_fst_placesFrom 0 s.journal
  superseded before w after hj := by
    refine ⟨Journal.placeAfter w.key (0 + Journal.takes before) after, ?_,
      Journal.placeAfter_eq_superseded_iff⟩
    rw [hj, Journal.places, Journal.getElem?_placesFrom]
  waiting := h.waiting_perm
  taken := h.taken
  takes := h.takes
  distinctWaiting := nodup_keys_waiting h.keyed
  distinct b hb := by
    obtain ⟨n, hn⟩ := batch_of_mem hb
    rw [← hn]
    exact h.distinct n
  latest := h.latest
  increasing b hb := by
    obtain ⟨n, hn⟩ := batch_of_mem hb
    rw [← hn]
    exact h.increasing n
  sorted b hb found hp := by
    obtain ⟨n, hn⟩ := batch_of_mem hb
    rw [← hn] at hp ⊢
    exact mergeSort_eq_of_perm hp (h.distinct n) (h.increasing n)
  counted hall := by
    rw [h.counted, counted_of_all hall]

/-- An action adds what it records to the journal. -/
theorem write?_act [Payload α] [DurableStore σ] (s : Work α σ) (action : Action α) :
    (s.act action).journal.filterMap Mark.write? =
      s.journal.filterMap Mark.write? ++ action.write?.toList := by
  cases action with
  | record e now =>
    unfold act
    rw [List.filterMap_append]
    rfl
  | takeDue now =>
    rw [act, WriteBack.takeDue?]
    by_cases hdue : s.writeBack.isDue now = true
    · rw [if_pos hdue]
      exact List.filterMap_append
    · rw [if_neg hdue]
      exact (List.append_nil _).symm
  | takeAll now => exact List.filterMap_append
  | persist n clock =>
    rcases hn : s.batches[n]? with _ | ⟨writes, _ | r | _⟩ <;>
      · simp only [act, hn]
        exact (List.append_nil _).symm

theorem write?_run [Payload α] [DurableStore σ] (s : Work α σ) (actions : List (Action α)) :
    (s.run actions).journal.filterMap Mark.write? =
      s.journal.filterMap Mark.write? ++ actions.filterMap Action.write? := by
  induction actions generalizing s with
  | nil => exact (List.append_nil _).symm
  | cons action actions ih =>
    have hstep : (s.run (action :: actions)).journal = ((s.act action).run actions).journal := rfl
    rw [hstep, ih, write?_act, List.append_assoc]
    cases hw : action.write? with
    | none => rw [List.filterMap_cons_none hw]; rfl
    | some w => rw [List.filterMap_cons_some hw]; rfl

/-- No write that was recorded is lost or taken twice, whatever is done with a write-back. -/
theorem conserved_run [Payload α] [DurableStore σ] (interval ttl : UInt64) (startedAt : Instant)
    (store : σ) (actions : List (Action α)) :
    ((start interval ttl startedAt store).run actions).Conserved
      (actions.filterMap Action.write?) := by
  have hrun := (balanced_start interval ttl startedAt store).run actions
  have hwrites := write?_run (start interval ttl startedAt store) actions
  rw [show (start interval ttl startedAt store : Work α σ).journal = [] from rfl,
    List.filterMap_nil, List.nil_append] at hwrites
  rw [← hwrites]
  exact hrun.conserved

end Work

end MarketCache.WriteBack
