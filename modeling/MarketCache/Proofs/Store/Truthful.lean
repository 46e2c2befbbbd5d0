import MarketCache.Store.Faulty
import MarketCache.Store.Memory
import MarketCache.Store.Record

/-!
# Truthful stores

A store is truthful if a read finds only bytes that were put under the key that is read: every
value it hands out is one that it keeps under that key, and nothing but a write makes it keep
another one. It may lose what it keeps at any time, and refuse any read or write.

Main definitions:
* `TruthfulStore`: what a store keeps, and the laws of it.

Results are the instances: the store in memory, the store of records, and either of them
behind a fault plan are truthful.
-/

namespace MarketCache

/-- Stores that hand out only what was put. -/
class TruthfulStore (σ : Type) [DurableStore σ] where
  /-- Whether some bytes may come out of a read of a key. -/
  Keeps : σ → (key : String) → Bytes → Prop
  keeps_of_get {s : σ} {now : Instant} {key : String} {v : Bytes} :
    (DurableStore.get s now key).1 = .ok (some v) → Keeps s key v
  keeps_get {s : σ} {now : Instant} {key k : String} {v : Bytes} :
    Keeps (DurableStore.get s now key).2 k v → Keeps s k v
  keeps_put {s : σ} {now : Instant} {key k : String} {value v : Bytes} {ttlSecs : UInt64} :
    Keeps (DurableStore.put s now key value ttlSecs).2 k v → Keeps s k v ∨ (k = key ∧ v = value)

/-! ## The store in memory -/

namespace MemoryStore

/-- Whether a value is there, expired or not. -/
def Keeps (s : MemoryStore) (key : String) (v : Bytes) : Prop :=
  ∃ expiresAt, s.values[key]? = some ⟨v, expiresAt⟩

theorem keeps_of_get {s : MemoryStore} {now : Instant} {key : String} {v : Bytes}
    (h : (s.get now key).1 = some v) : s.Keeps key v := by
  unfold get check at h
  rcases hv : s.values[key]? with _ | ⟨value, expiresAt⟩
  · simp only [hv] at h
    simp at h
  · simp only [hv] at h
    by_cases hexp : StoredValue.isExpired ⟨value, expiresAt⟩ now = true
    · rw [if_pos hexp] at h
      simp at h
    · rw [if_neg hexp] at h
      cases h
      exact ⟨expiresAt, hv⟩

theorem keeps_evict {s : MemoryStore} {now : Instant} {key k : String} {v : Bytes}
    (h : (s.evict now key).Keeps k v) : s.Keeps k v := by
  unfold evict at h
  split at h
  · exact h
  · split at h
    · obtain ⟨expiresAt, hv⟩ := h
      rw [Std.ExtTreeMap.getElem?_erase] at hv
      split at hv
      · simp at hv
      · exact ⟨expiresAt, hv⟩
    · exact h

theorem keeps_get {s : MemoryStore} {now : Instant} {key k : String} {v : Bytes}
    (h : (s.get now key).2.Keeps k v) : s.Keeps k v := by
  unfold get at h
  split at h
  · exact h
  · exact h
  · exact keeps_evict h

theorem keeps_put {s : MemoryStore} {now : Instant} {key k : String} {value v : Bytes}
    {ttlSecs : UInt64} (h : (s.put now key value ttlSecs).Keeps k v) :
    s.Keeps k v ∨ (k = key ∧ v = value) := by
  obtain ⟨expiresAt, hv⟩ := h
  unfold put at hv
  rw [Std.ExtTreeMap.getElem?_insert] at hv
  split at hv
  · next hkey =>
    cases hv
    exact Or.inr ⟨(Std.LawfulEqOrd.eq_of_compare hkey).symm, rfl⟩
  · exact Or.inl ⟨expiresAt, hv⟩

instance : TruthfulStore MemoryStore where
  Keeps := Keeps
  keeps_of_get {s now key v} h := by
    have hget : Except.ok (s.get now key).1 = (.ok (some v) : Except StoreError _) := h
    exact keeps_of_get (Except.ok.inj hget)
  keeps_get h := keeps_get h
  keeps_put h := keeps_put h

end MemoryStore

/-! ## The store of records -/

namespace Record

theorem length_bigEndian (count n : Nat) : (bigEndian count n).length = count := by
  induction count with
  | zero => rfl
  | succ count ih => rw [bigEndian, List.length_cons, ih]

/-- The value of a record is what was put into it. -/
theorem decode?_encode (expiry : Int) (value : Bytes) :
    ∃ e, decode? (encode expiry value) = some (e, value) := by
  have hlen := length_bigEndian 8 (expiry % 18446744073709551616).toNat
  have hlong : ¬ (encode expiry value).length < 8 := by
    unfold encode
    rw [List.length_append, hlen]
    omega
  refine ⟨Int.bmod (ofBigEndian ((encode expiry value).take 8)) UInt64.size, ?_⟩
  unfold decode?
  rw [if_neg hlong, encode, List.drop_left' hlen]

end Record

namespace RecordStore

/-- Whether a record with a value is there, expired or not. -/
def Keeps (s : RecordStore) (key : String) (v : Bytes) : Prop :=
  ∃ record expiry, s.records[key]? = some record ∧ Record.decode? record = some (expiry, v)

theorem keeps_of_get {s : RecordStore} {now : Instant} {key : String} {v : Bytes}
    (h : (s.get now key).1 = .ok (some v)) : s.Keeps key v := by
  unfold get check at h
  rcases hr : s.records[key]? with _ | record
  · simp only [hr] at h
    simp at h
  · rcases hd : Record.decode? record with _ | ⟨expiry, value⟩
    · simp only [hr, hd] at h
      simp at h
    · simp only [hr, hd] at h
      by_cases hexp : expiry ≤ now.millis
      · rw [if_pos hexp] at h
        simp at h
      · rw [if_neg hexp] at h
        cases h
        exact ⟨record, expiry, hr, hd⟩

theorem keeps_evict {s : RecordStore} {key k : String} {record v : Bytes}
    (h : (s.evict key record).Keeps k v) : s.Keeps k v := by
  unfold evict at h
  split at h
  · obtain ⟨r, expiry, hr, hd⟩ := h
    rw [Std.ExtTreeMap.getElem?_erase] at hr
    split at hr
    · simp at hr
    · exact ⟨r, expiry, hr, hd⟩
  · exact h

theorem keeps_get {s : RecordStore} {now : Instant} {key k : String} {v : Bytes}
    (h : (s.get now key).2.Keeps k v) : s.Keeps k v := by
  unfold get at h
  split at h
  · exact h
  · exact h
  · exact keeps_evict h
  · exact h

theorem keeps_put {s : RecordStore} {now : Instant} {key k : String} {value v : Bytes}
    {ttlSecs : UInt64} (h : (s.put now key value ttlSecs).Keeps k v) :
    s.Keeps k v ∨ (k = key ∧ v = value) := by
  obtain ⟨record, expiry, hr, hd⟩ := h
  unfold put putRaw at hr
  rw [Std.ExtTreeMap.getElem?_insert] at hr
  split at hr
  · next hkey =>
    obtain ⟨e, he⟩ := Record.decode?_encode (Record.expiry now ttlSecs) value
    rw [← Option.some.inj hr, he] at hd
    cases hd
    exact Or.inr ⟨(Std.LawfulEqOrd.eq_of_compare hkey).symm, rfl⟩
  · exact Or.inl ⟨record, expiry, hr, hd⟩

instance : TruthfulStore RecordStore where
  Keeps := Keeps
  keeps_of_get h := keeps_of_get h
  keeps_get h := keeps_get h
  keeps_put h := keeps_put h

end RecordStore

/-! ## A store behind a fault plan -/

namespace FaultyStore

variable {σ : Type} [DurableStore σ] [TruthfulStore σ]

instance : TruthfulStore (FaultyStore σ) where
  Keeps s := TruthfulStore.Keeps s.inner
  keeps_of_get {s now key v} h := by
    have hget : (s.get now key).1 = .ok (some v) := h
    rw [get] at hget
    split at hget
    · simp at hget
    · exact TruthfulStore.keeps_of_get hget
  keeps_get {s now key k v} h := by
    have hget : TruthfulStore.Keeps (s.get now key).2.inner k v := h
    rw [get] at hget
    split at hget
    · exact hget
    · exact TruthfulStore.keeps_get hget
  keeps_put {s now key k value v ttlSecs} h := by
    have hput : TruthfulStore.Keeps (s.put now key value ttlSecs).2.inner k v := h
    unfold put at hput
    split at hput
    · exact Or.inl hput
    · split at hput
      · exact Or.inl hput
      · exact TruthfulStore.keeps_put hput

end FaultyStore

end MarketCache
