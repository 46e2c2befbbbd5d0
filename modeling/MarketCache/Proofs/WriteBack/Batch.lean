import MarketCache.WriteBack.Pass

/-!
# The batch of a pass

All that waits, in the one order in which it is written. Each write waits under its own key,
so the keys of a batch are different, and the order by instant and key leaves no choice:
whatever order the writes are found in, sorting them gives the same batch.

Results:
* `mem_batch_iff`: what a batch holds.
* `batch_pairwise_before`: a batch is strictly increasing.
* `mergeSort_eq_of_perm`: a batch does not depend on the order in which its writes are found.
-/

namespace MarketCache

variable {α : Type}

namespace PendingWrite

/-! ## The order of writes -/

/-- Whether a write stands before another one in a batch: it has waited for longer, or as long
    and its key is less. -/
def Before (a b : PendingWrite α) : Prop :=
  a.enqueuedAt < b.enqueuedAt ∨ (a.enqueuedAt = b.enqueuedAt ∧ a.key < b.key)

theorem precedes_iff {a b : PendingWrite α} :
    a.precedes b = true ↔
      a.enqueuedAt < b.enqueuedAt ∨ (a.enqueuedAt = b.enqueuedAt ∧ a.key ≤ b.key) := by
  simp [precedes]

theorem precedes_trans {a b c : PendingWrite α} (hab : a.precedes b = true)
    (hbc : b.precedes c = true) : a.precedes c = true := by
  rw [precedes_iff] at *
  rcases hab with hab | ⟨hab, hkey⟩ <;> rcases hbc with hbc | ⟨hbc, hkey'⟩
  · left
    rw [Instant.lt_def] at *
    omega
  · left
    rw [← hbc]
    exact hab
  · left
    rw [hab]
    exact hbc
  · right
    exact ⟨hab.trans hbc, String.le_trans hkey hkey'⟩

theorem precedes_total (a b : PendingWrite α) : (a.precedes b || b.precedes a) = true := by
  rw [Bool.or_eq_true, precedes_iff, precedes_iff]
  by_cases h : a.enqueuedAt = b.enqueuedAt
  · rcases String.le_total a.key b.key with hkey | hkey
    · exact Or.inl (Or.inr ⟨h, hkey⟩)
    · exact Or.inr (Or.inr ⟨h.symm, hkey⟩)
  · rcases Instant.le_total a.enqueuedAt b.enqueuedAt with hle | hle
    · by_cases hlt : a.enqueuedAt < b.enqueuedAt
      · exact Or.inl (Or.inl hlt)
      · exact absurd (Instant.le_antisymm hle (Decidable.not_not.mp (mt Instant.not_le.mp hlt))) h
    · by_cases hlt : b.enqueuedAt < a.enqueuedAt
      · exact Or.inr (Or.inl hlt)
      · exact absurd (Instant.le_antisymm (Decidable.not_not.mp (mt Instant.not_le.mp hlt)) hle) h

theorem before_of_precedes {a b : PendingWrite α} (h : a.precedes b = true)
    (hkey : a.key ≠ b.key) : a.Before b := by
  rcases precedes_iff.mp h with hlt | ⟨heq, hle⟩
  · exact Or.inl hlt
  · refine Or.inr ⟨heq, ?_⟩
    rw [← String.not_le]
    exact fun hge => hkey (String.le_antisymm hle hge)

theorem not_before_of_before {a b : PendingWrite α} (h : a.Before b) : ¬ b.Before a := by
  intro h'
  rcases h with hlt | ⟨heq, hlt⟩ <;> rcases h' with hlt' | ⟨heq', hlt'⟩
  · rw [Instant.lt_def] at *
    omega
  · rw [heq', Instant.lt_def] at hlt
    omega
  · rw [heq, Instant.lt_def] at hlt'
    omega
  · exact String.lt_asymm hlt hlt'

end PendingWrite

namespace WriteBack

/-! ## What waits -/

/-- Whether each write waits under its own key. -/
def Keyed (w : WriteBack α) : Prop := ∀ key v, w.pendingFor? key = some v → v.key = key

theorem keyed_start (interval ttl : UInt64) (startedAt : Instant) :
    (start interval ttl startedAt : WriteBack α).Keyed := by
  intro key v h
  rw [pendingFor?_start] at h
  simp at h

theorem Keyed.record {w : WriteBack α} (h : w.Keyed) (e : Entry α) (now : Instant) :
    (w.record e now).Keyed := by
  intro key v hv
  rw [pendingFor?_record] at hv
  split at hv
  · next hkey =>
    cases hv
    exact hkey
  · exact h key v hv

theorem keyed_takeAll (w : WriteBack α) (now : Instant) : (w.takeAll now).2.Keyed := by
  intro key v h
  rw [pendingFor?_takeAll] at h
  simp at h

theorem Keyed.settle {w : WriteBack α} (h : w.Keyed) (r : FlushReport) : (w.settle r).Keyed := h

/-- The writes that wait, in the order in which they happen to be found. -/
def waiting (w : WriteBack α) : List (PendingWrite α) := w.pending.toList.map (·.2)

theorem mem_waiting_iff {w : WriteBack α} (h : w.Keyed) {v : PendingWrite α} :
    v ∈ w.waiting ↔ w.pendingFor? v.key = some v := by
  unfold waiting
  rw [List.mem_map]
  constructor
  · rintro ⟨⟨key, v'⟩, hmem, rfl⟩
    have hkey : w.pendingFor? key = some v' :=
      Std.ExtTreeMap.mem_toList_iff_getElem?_eq_some.mp hmem
    rw [h key v' hkey]
    exact hkey
  · intro hv
    exact ⟨(v.key, v), Std.ExtTreeMap.mem_toList_iff_getElem?_eq_some.mpr hv, rfl⟩

theorem map_key_waiting {w : WriteBack α} (h : w.Keyed) :
    w.waiting.map (·.key) = w.pending.toList.map (·.1) := by
  unfold waiting
  rw [List.map_map]
  apply List.map_congr_left
  rintro ⟨key, v⟩ hmem
  exact h key v (Std.ExtTreeMap.mem_toList_iff_getElem?_eq_some.mp hmem)

/-- At most one write of each key waits. -/
theorem nodup_keys_waiting {w : WriteBack α} (h : w.Keyed) : (w.waiting.map (·.key)).Nodup := by
  rw [map_key_waiting h, Std.ExtTreeMap.map_fst_toList_eq_keys]
  exact Std.ExtTreeMap.nodup_keys

/-! ## The batch -/

theorem batch_perm_waiting (w : WriteBack α) : w.batch.Perm w.waiting :=
  List.mergeSort_perm _ _

/-- A batch is as long as the number of writes that wait. -/
theorem length_batch (w : WriteBack α) : w.batch.length = w.pendingCount := by
  rw [w.batch_perm_waiting.length_eq, waiting, List.length_map, Std.ExtTreeMap.length_toList]
  rfl

/-- What is in a batch waited under some key. -/
theorem exists_of_mem_batch {w : WriteBack α} {v : PendingWrite α} (h : v ∈ w.batch) :
    ∃ key, w.pendingFor? key = some v := by
  rw [w.batch_perm_waiting.mem_iff, waiting, List.mem_map] at h
  obtain ⟨⟨key, v'⟩, hmem, rfl⟩ := h
  exact ⟨key, Std.ExtTreeMap.mem_toList_iff_getElem?_eq_some.mp hmem⟩

/-- What waits under some key is in the batch. -/
theorem mem_batch_of_pendingFor? {w : WriteBack α} {key : String} {v : PendingWrite α}
    (h : w.pendingFor? key = some v) : v ∈ w.batch := by
  rw [w.batch_perm_waiting.mem_iff]
  exact List.mem_map.mpr ⟨(key, v), Std.ExtTreeMap.mem_toList_iff_getElem?_eq_some.mpr h, rfl⟩

theorem mem_batch_iff {w : WriteBack α} (h : w.Keyed) {v : PendingWrite α} :
    v ∈ w.batch ↔ w.pendingFor? v.key = some v := by
  rw [w.batch_perm_waiting.mem_iff, mem_waiting_iff h]

theorem nodup_keys_batch {w : WriteBack α} (h : w.Keyed) : (w.batch.map (·.key)).Nodup :=
  (w.batch_perm_waiting.map _).nodup_iff.mpr (nodup_keys_waiting h)

/-- Writes of different keys, sorted, are strictly increasing. -/
theorem mergeSort_pairwise_before {l : List (PendingWrite α)} (h : (l.map (·.key)).Nodup) :
    (l.mergeSort PendingWrite.precedes).Pairwise PendingWrite.Before := by
  have hsorted : (l.mergeSort PendingWrite.precedes).Pairwise fun a b => a.precedes b = true :=
    @List.pairwise_mergeSort _ PendingWrite.precedes (fun _ _ _ => PendingWrite.precedes_trans)
      PendingWrite.precedes_total l
  have hkeys : (l.mergeSort PendingWrite.precedes).Pairwise fun a b => a.key ≠ b.key := by
    have hperm := (List.mergeSort_perm l PendingWrite.precedes).map (·.key)
    exact List.pairwise_map.mp (hperm.nodup_iff.mpr h)
  exact (hsorted.and hkeys).imp fun ⟨hle, hne⟩ => PendingWrite.before_of_precedes hle hne

/-- A batch is strictly increasing by instant and key. -/
theorem batch_pairwise_before {w : WriteBack α} (h : w.Keyed) :
    w.batch.Pairwise PendingWrite.Before := mergeSort_pairwise_before (nodup_keys_waiting h)

/-- Writes of different keys that are strictly increasing come out of sorting, in whatever order
    they are found. -/
theorem mergeSort_eq_of_perm {l batch : List (PendingWrite α)} (hp : l.Perm batch)
    (hkeys : (batch.map (·.key)).Nodup) (hb : batch.Pairwise PendingWrite.Before) :
    l.mergeSort PendingWrite.precedes = batch := by
  have hl : (l.map (·.key)).Nodup := (hp.map _).nodup_iff.mpr hkeys
  have hsorted := mergeSort_pairwise_before hl
  refine List.Perm.eq_of_pairwise ?_ hsorted hb ((List.mergeSort_perm _ _).trans hp)
  intro a b _ _ hab hba
  exact absurd hba (PendingWrite.not_before_of_before hab)

end WriteBack

end MarketCache
