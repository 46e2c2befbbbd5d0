import MarketCache.Store.Faulty
import MarketCache.Store.Memory
import MarketCache.Store.Record

/-!
# Local stores

A store is local if it treats every key on its own: what a read or a write comes to, and what it
leaves under its key, depends on nothing but what is under that key, and what is under other
keys stays as it is.

Main definition: `LocalStore`, what a store has under a key, and the laws of it.

Results are the instances: the store in memory, the store of records, and either of them behind
a fault plan are local.
-/

namespace MarketCache

/-- Stores that treat every key on its own. -/
class LocalStore (σ : Type) [DurableStore σ] where
  /-- What there may be under a key. -/
  Cell : Type
  /-- What there is under a key, whether a read comes to it or not. -/
  cell : σ → (key : String) → Cell
  get_congr {s s' : σ} {key : String} (now : Instant) : cell s key = cell s' key →
    (DurableStore.get s now key).1 = (DurableStore.get s' now key).1 ∧
      cell (DurableStore.get s now key).2 key = cell (DurableStore.get s' now key).2 key
  cell_get_of_ne {s : σ} {key k : String} (now : Instant) : key ≠ k →
    cell (DurableStore.get s now key).2 k = cell s k
  put_congr {s s' : σ} {key : String} (now : Instant) (value : Bytes) (ttlSecs : UInt64) :
    cell s key = cell s' key →
      (DurableStore.put s now key value ttlSecs).1 = (DurableStore.put s' now key value ttlSecs).1 ∧
        cell (DurableStore.put s now key value ttlSecs).2 key =
          cell (DurableStore.put s' now key value ttlSecs).2 key
  cell_put_of_ne {s : σ} {key k : String} (now : Instant) (value : Bytes) (ttlSecs : UInt64) :
    key ≠ k → cell (DurableStore.put s now key value ttlSecs).2 k = cell s k

/-! ## The store in memory -/

namespace MemoryStore

variable {s s' : MemoryStore} {key k : String}

theorem get_congr (h : s.values[key]? = s'.values[key]?) (now : Instant) :
    (s.get now key).1 = (s'.get now key).1 ∧
      (s.get now key).2.values[key]? = (s'.get now key).2.values[key]? := by
  have hcheck : s.check now key = s'.check now key := by rw [check, check, h]
  unfold get
  rw [hcheck]
  split
  · exact ⟨rfl, h⟩
  · exact ⟨rfl, h⟩
  · refine ⟨rfl, ?_⟩
    unfold evict
    rw [h]
    rcases s'.values[key]? with _ | v
    · exact h
    · by_cases hexp : v.isExpired now = true
      · simp only [if_pos hexp, Std.ExtTreeMap.getElem?_erase_self]
      · simp only [if_neg hexp]
        exact h

theorem values_get_of_ne (hne : key ≠ k) (now : Instant) :
    (s.get now key).2.values[k]? = s.values[k]? := by
  unfold get
  split
  · rfl
  · rfl
  · unfold evict
    split
    · rfl
    · split
      · rw [Std.ExtTreeMap.getElem?_erase, if_neg (by simpa using hne)]
      · rfl

theorem values_put_of_ne (hne : key ≠ k) (now : Instant) (value : Bytes) (ttlSecs : UInt64) :
    (s.put now key value ttlSecs).values[k]? = s.values[k]? := by
  rw [put, Std.ExtTreeMap.getElem?_insert, if_neg (by simpa using hne)]

theorem values_put_self (now : Instant) (value : Bytes) (ttlSecs : UInt64) :
    (s.put now key value ttlSecs).values[key]? = some ⟨value, expiry now ttlSecs⟩ := by
  rw [put, Std.ExtTreeMap.getElem?_insert_self]

instance : LocalStore MemoryStore where
  Cell := Option StoredValue
  cell s key := s.values[key]?
  get_congr now h := ⟨congrArg Except.ok (get_congr h now).1, (get_congr h now).2⟩
  cell_get_of_ne now hne := values_get_of_ne hne now
  put_congr now value ttlSecs _ :=
    ⟨rfl, (values_put_self now value ttlSecs).trans (values_put_self now value ttlSecs).symm⟩
  cell_put_of_ne now value ttlSecs hne := values_put_of_ne hne now value ttlSecs

end MemoryStore

/-! ## The store of records -/

namespace RecordStore

variable {s s' : RecordStore} {key k : String}

theorem get_congr (h : s.records[key]? = s'.records[key]?) (now : Instant) :
    (s.get now key).1 = (s'.get now key).1 ∧
      (s.get now key).2.records[key]? = (s'.get now key).2.records[key]? := by
  have hcheck : s.check now key = s'.check now key := by rw [check, check, h]
  unfold get
  rw [hcheck]
  split
  · exact ⟨rfl, h⟩
  · exact ⟨rfl, h⟩
  · next record _ =>
    refine ⟨rfl, ?_⟩
    unfold evict
    rw [h]
    by_cases hthere : s'.records[key]? = some record
    · simp only [if_pos hthere, Std.ExtTreeMap.getElem?_erase_self]
    · simp only [if_neg hthere]
      exact h
  · exact ⟨rfl, h⟩

theorem records_get_of_ne (hne : key ≠ k) (now : Instant) :
    (s.get now key).2.records[k]? = s.records[k]? := by
  unfold get
  split
  · rfl
  · rfl
  · unfold evict
    split
    · rw [Std.ExtTreeMap.getElem?_erase, if_neg (by simpa using hne)]
    · rfl
  · rfl

theorem records_put_of_ne (hne : key ≠ k) (now : Instant) (value : Bytes) (ttlSecs : UInt64) :
    (s.put now key value ttlSecs).records[k]? = s.records[k]? := by
  rw [put, putRaw, Std.ExtTreeMap.getElem?_insert, if_neg (by simpa using hne)]

theorem records_put_self (now : Instant) (value : Bytes) (ttlSecs : UInt64) :
    (s.put now key value ttlSecs).records[key]? =
      some (Record.encode (Record.expiry now ttlSecs) value) := by
  rw [put, putRaw, Std.ExtTreeMap.getElem?_insert_self]

instance : LocalStore RecordStore where
  Cell := Option Bytes
  cell s key := s.records[key]?
  get_congr now h := get_congr h now
  cell_get_of_ne now hne := records_get_of_ne hne now
  put_congr now value ttlSecs _ :=
    ⟨rfl, (records_put_self now value ttlSecs).trans (records_put_self now value ttlSecs).symm⟩
  cell_put_of_ne now value ttlSecs hne := records_put_of_ne hne now value ttlSecs

end RecordStore

/-! ## A store behind a fault plan -/

namespace FaultyStore

variable {σ : Type} [DurableStore σ] [LocalStore σ]

/-- What the plan and the store behind it have to do with a key. -/
def cell (s : FaultyStore σ) (key : String) : FaultPlan × LocalStore.Cell σ :=
  (s.plan, LocalStore.cell s.inner key)

variable {s s' : FaultyStore σ} {key k : String}

theorem get_congr (h : s.cell key = s'.cell key) (now : Instant) :
    (s.get now key).1 = (s'.get now key).1 ∧
      (s.get now key).2.cell key = (s'.get now key).2.cell key := by
  obtain ⟨hplan, hinner⟩ := Prod.mk.inj h
  obtain ⟨hresult, hcell⟩ := LocalStore.get_congr now hinner
  unfold get
  by_cases hfail : s'.plan.failReads = true
  · simp only [hplan, if_pos hfail, true_and]
    exact Prod.ext rfl hinner
  · simp only [hplan, if_neg hfail]
    exact ⟨hresult, Prod.ext rfl hcell⟩

theorem cell_get_of_ne (hne : key ≠ k) (now : Instant) : (s.get now key).2.cell k = s.cell k := by
  unfold get
  dsimp only
  split
  · rfl
  · exact Prod.ext rfl (LocalStore.cell_get_of_ne now hne)

theorem put_congr (h : s.cell key = s'.cell key) (now : Instant) (value : Bytes)
    (ttlSecs : UInt64) :
    (s.put now key value ttlSecs).1 = (s'.put now key value ttlSecs).1 ∧
      (s.put now key value ttlSecs).2.cell key = (s'.put now key value ttlSecs).2.cell key := by
  obtain ⟨hplan, hinner⟩ := Prod.mk.inj h
  obtain ⟨hresult, hcell⟩ := LocalStore.put_congr now value ttlSecs hinner
  unfold put
  by_cases habort : s'.plan.abortWrites = true
  · simp only [hplan, if_pos habort, true_and]
    exact h
  · by_cases hrefuse : s'.plan.refuses key = true
    · simp only [hplan, if_neg habort, if_pos hrefuse, true_and]
      exact Prod.ext rfl hinner
    · simp only [hplan, if_neg habort, if_neg hrefuse]
      exact ⟨hresult, Prod.ext rfl hcell⟩

theorem cell_put_of_ne (hne : key ≠ k) (now : Instant) (value : Bytes) (ttlSecs : UInt64) :
    (s.put now key value ttlSecs).2.cell k = s.cell k := by
  unfold put
  split
  · rfl
  · split
    · rfl
    · exact Prod.ext rfl (LocalStore.cell_put_of_ne now value ttlSecs hne)

instance : LocalStore (FaultyStore σ) where
  Cell := FaultPlan × LocalStore.Cell σ
  cell := cell
  get_congr now h := get_congr h now
  cell_get_of_ne now hne := cell_get_of_ne hne now
  put_congr now value ttlSecs h := put_congr h now value ttlSecs
  cell_put_of_ne now value ttlSecs hne := cell_put_of_ne hne now value ttlSecs

end FaultyStore

end MarketCache
