import MarketCache.Proofs.Store.Truthful

/-!
# Exact stores

A truthful store may keep more under a key than it hands out: a value that has expired, say. A
store is exact if a read that is not refused leaves nothing behind under its key but what it
came to.

Results are the instances: the store in memory, the store of records, and either of them
behind a fault plan are exact.
-/

namespace MarketCache

/-- Stores that keep nothing under a key but what a read of it has just come to. -/
class ExactStore (σ : Type) [DurableStore σ] extends TruthfulStore σ where
  eq_of_keeps_get {s : σ} {now : Instant} {key : String} {r : Option Bytes} {v : Bytes} :
    (DurableStore.get s now key).1 = .ok r → Keeps (DurableStore.get s now key).2 key v →
      r = some v

namespace MemoryStore

theorem not_keeps_evict {s : MemoryStore} {now : Instant} {key : String} {v : Bytes}
    (h : s.check now key = .expired) : ¬ (s.evict now key).Keeps key v := by
  rintro ⟨expiresAt, hv⟩
  unfold check at h
  unfold evict at hv
  rcases hs : s.values[key]? with _ | stored
  · simp only [hs] at h
    cases h
  · simp only [hs] at h hv
    by_cases hexp : stored.isExpired now = true
    · rw [if_pos hexp, Std.ExtTreeMap.getElem?_erase_self] at hv
      cases hv
    · rw [if_neg hexp] at h
      cases h

theorem eq_of_keeps_get {s : MemoryStore} {now : Instant} {key : String} {v : Bytes}
    (h : (s.get now key).2.Keeps key v) : (s.get now key).1 = some v := by
  rcases hcheck : s.check now key with _ | live | _
  · -- nothing was there
    obtain ⟨expiresAt, hv⟩ := keeps_get h
    unfold check at hcheck
    simp only [hv] at hcheck
    split at hcheck <;> cases hcheck
  · obtain ⟨expiresAt, hv⟩ := keeps_get h
    have hlive : s.check now key = .live v := by
      unfold check at hcheck ⊢
      simp only [hv] at hcheck ⊢
      split at hcheck
      · cases hcheck
      · next hexp => rw [if_neg hexp]
    simp only [get, hlive]
  · rw [get, hcheck] at h
    exact absurd h (not_keeps_evict hcheck)

instance : ExactStore MemoryStore where
  eq_of_keeps_get {s now key r v} hget hkept := by
    have hr : Except.ok (s.get now key).1 = (.ok r : Except StoreError _) := hget
    exact (Except.ok.inj hr).symm.trans (eq_of_keeps_get hkept)

end MemoryStore

namespace RecordStore

theorem eq_of_keeps_get {s : RecordStore} {now : Instant} {key : String} {r : Option Bytes}
    {v : Bytes} (hr : (s.get now key).1 = .ok r) (h : (s.get now key).2.Keeps key v) :
    r = some v := by
  obtain ⟨record, expiry, hrecord, hdecode⟩ := keeps_get h
  by_cases hexp : expiry ≤ now.millis
  · -- the record has expired, and is removed
    have hcheck : s.check now key = .expired record := by
      simp only [check, hrecord, hdecode, if_pos hexp]
    obtain ⟨record', expiry', hrecord', -⟩ := h
    simp only [get, hcheck, evict, hrecord, if_true] at hrecord'
    rw [Std.ExtTreeMap.getElem?_erase_self] at hrecord'
    cases hrecord'
  · have hcheck : s.check now key = .live v := by
      simp only [check, hrecord, hdecode, if_neg hexp]
    simp only [get, hcheck] at hr
    exact (Except.ok.inj hr).symm

instance : ExactStore RecordStore where
  eq_of_keeps_get := eq_of_keeps_get

end RecordStore

namespace FaultyStore

variable {σ : Type} [DurableStore σ] [ExactStore σ]

instance : ExactStore (FaultyStore σ) where
  eq_of_keeps_get {s now key r v} hget hkept := by
    have hr : (s.get now key).1 = .ok r := hget
    have hv : TruthfulStore.Keeps (s.get now key).2.inner key v := hkept
    unfold get at hr hv
    by_cases hfail : s.plan.failReads = true
    · simp only [hfail, if_true] at hr
      cases hr
    · simp only [hfail] at hr hv
      exact ExactStore.eq_of_keeps_get hr hv

end FaultyStore

end MarketCache
