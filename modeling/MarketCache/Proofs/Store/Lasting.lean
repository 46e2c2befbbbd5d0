import Mathlib.Algebra.Group.Nat.Defs
import MarketCache.Proofs.Store.Truthful
import MarketCache.Proofs.Time.Expiry

/-!
# Lasting stores

A store is lasting if a value that it has accepted stays until it is written over, and until its
time to live is over up to a millisecond: reads and writes of other keys leave it alone, and a
read that is not refused comes to it.

Main definition: `LastingStore`, what a store holds, and the laws of it.

Results are the instances: the store in memory, the store of records, and either of them behind
a fault plan are lasting.
-/

namespace MarketCache

/-- Stores that keep a value for its time to live. -/
class LastingStore (σ : Type) [DurableStore σ] where
  /-- Whether what was put last under a key is a value, put at an instant with a time to live. -/
  Holds : σ → (key : String) → Bytes → (put : Instant) → (ttlSecs : UInt64) → Prop
  holds_put {s : σ} {put : Instant} {key : String} {v : Bytes} {ttlSecs : UInt64} :
    (DurableStore.put s put key v ttlSecs).1 = .accepted →
      Holds (DurableStore.put s put key v ttlSecs).2 key v put ttlSecs
  holds_put_of_ne {s : σ} {now put : Instant} {key k : String} {value v : Bytes}
    {ttl ttlSecs : UInt64} : key ≠ k → Holds s k v put ttlSecs →
      Holds (DurableStore.put s now key value ttl).2 k v put ttlSecs
  holds_get {s : σ} {now put : Instant} {key k : String} {v : Bytes} {ttlSecs : UInt64} :
    put.IsReading → now.IsReading → put.Outlasts ttlSecs now → Holds s k v put ttlSecs →
      Holds (DurableStore.get s now key).2 k v put ttlSecs
  eq_of_holds {s : σ} {now put : Instant} {key : String} {v : Bytes} {ttlSecs : UInt64}
    {r : Option Bytes} : put.IsReading → now.IsReading → put.Outlasts ttlSecs now →
      Holds s key v put ttlSecs → (DurableStore.get s now key).1 = .ok r → r = some v

/-! ## The store in memory -/

namespace MemoryStore

/-- Whether a value is there with the expiry that it was put with. -/
def Holds (s : MemoryStore) (key : String) (v : Bytes) (put : Instant) (ttlSecs : UInt64) : Prop :=
  s.values[key]? = some ⟨v, expiry put ttlSecs⟩

section

variable {s : MemoryStore} {now put : Instant} {key k : String} {v : Bytes} {ttlSecs : UInt64}

theorem holds_put : (s.put put key v ttlSecs).Holds key v put ttlSecs := by
  rw [MemoryStore.put, Holds, Std.ExtTreeMap.getElem?_insert_self]

theorem holds_put_of_ne {value : Bytes} {ttl : UInt64} (hne : key ≠ k)
    (h : s.Holds k v put ttlSecs) : (s.put now key value ttl).Holds k v put ttlSecs := by
  rw [MemoryStore.put, Holds, Std.ExtTreeMap.getElem?_insert, if_neg (by simpa using hne)]
  exact h

/-- A read sees a value that is safe. -/
theorem check_of_holds (hput : put.IsReading) (hnow : now.IsReading)
    (hsafe : put.Outlasts ttlSecs now) (h : s.Holds key v put ttlSecs) :
    s.check now key = .live v := by
  have hlive : StoredValue.isExpired ⟨v, expiry put ttlSecs⟩ now = false :=
    decide_eq_false (Instant.not_le.mpr (lt_expiry hput hnow hsafe))
  rw [check, show s.values[key]? = _ from h]
  simp only [hlive, Bool.false_eq_true, if_false]

theorem holds_get (hput : put.IsReading) (hnow : now.IsReading) (hsafe : put.Outlasts ttlSecs now)
    (h : s.Holds k v put ttlSecs) : (s.get now key).2.Holds k v put ttlSecs := by
  by_cases hkey : key = k
  · rw [get, hkey, check_of_holds hput hnow hsafe h]
    exact h
  · unfold get
    split
    · exact h
    · exact h
    · unfold evict
      split
      · exact h
      · split
        · rw [Holds, Std.ExtTreeMap.getElem?_erase, if_neg (by simpa using hkey)]
          exact h
        · exact h

end

instance : LastingStore MemoryStore where
  Holds := Holds
  holds_put _ := holds_put
  holds_put_of_ne := holds_put_of_ne
  holds_get := holds_get
  eq_of_holds {s now put key v ttlSecs r} hput hnow hsafe h hr := by
    have hget : Except.ok (s.get now key).1 = (.ok r : Except StoreError _) := hr
    rw [get, check_of_holds hput hnow hsafe h] at hget
    exact (Except.ok.inj hget).symm

end MemoryStore

/-! ## The store of records -/

namespace Record

theorem foldl_bigEndian (count n start : Nat) :
    (bigEndian count n).foldl (fun n b => n * 256 + b.toNat) start =
      start * 256 ^ count + n % 256 ^ count := by
  induction count generalizing start with
  | zero => simp [bigEndian, Nat.mod_one]
  | succ count ih =>
    have hbyte : (UInt8.ofNat (n / Nat.pow 256 count)).toNat = n / 256 ^ count % 256 :=
      UInt8.toNat_ofNat'
    rw [bigEndian, List.foldl_cons, ih, hbyte, @Nat.mod_pow_succ n 256, Nat.pow_succ, Nat.add_mul,
      Nat.mul_assoc start, Nat.mul_comm 256, Nat.mul_comm (n / 256 ^ count % 256), Nat.add_assoc,
      Nat.add_comm (256 ^ count * _)]

/-- The number of the bytes of a number that fits. -/
theorem ofBigEndian_bigEndian {count n : Nat} (h : n < 256 ^ count) :
    ofBigEndian (bigEndian count n) = n := by
  rw [ofBigEndian, foldl_bigEndian, Nat.zero_mul, Nat.zero_add, Nat.mod_eq_of_lt h]

/-- The expiry and the value that a record was made of. -/
theorem decode?_encode_of_fits {expiry : Int} (hlow : -9223372036854775808 ≤ expiry)
    (hhigh : expiry < 9223372036854775808) (value : Bytes) :
    decode? (encode expiry value) = some (expiry, value) := by
  have hlen := length_bigEndian 8 (expiry % 18446744073709551616).toNat
  have hlong : ¬ (encode expiry value).length < 8 := by
    unfold encode
    rw [List.length_append, hlen]
    omega
  have hexpiry : Int.bmod ((expiry % 18446744073709551616).toNat : Int) UInt64.size = expiry := by
    rw [Int.toNat_of_nonneg (by omega)]
    exact (Int.emod_bmod expiry UInt64.size).trans
      (Int.bmod_eq_of_le (Int.le_trans (by decide) hlow) (Int.lt_of_lt_of_le hhigh (by decide)))
  unfold decode?
  rw [if_neg hlong, encode, List.drop_left' hlen, List.take_left' hlen,
    ofBigEndian_bigEndian (by omega), hexpiry]

/-- The expiry of a value fits eight bytes. -/
theorem expiry_fits {put : Instant} (hput : put.IsReading) (ttlSecs : UInt64) :
    -9223372036854775808 ≤ expiry put ttlSecs ∧ expiry put ttlSecs < 9223372036854775808 := by
  have hnano := Instant.nano_lt_of_not_isLeap hput.2
  have hearly : Instant.earliestSecond ≤ put.second := hput.1.1
  rw [expiry, Instant.add?_ofSeconds hput]
  unfold Instant.earliestSecond Instant.latestSecond at *
  split
  · next heq =>
    split at heq
    · cases heq
      unfold Instant.millis
      dsimp only
      omega
    · cases heq
  · unfold latestExpiry
    omega

end Record

namespace RecordStore

/-- Whether a record is there with a value and the expiry that it was put with. -/
def Holds (s : RecordStore) (key : String) (v : Bytes) (put : Instant) (ttlSecs : UInt64) : Prop :=
  s.records[key]? = some (Record.encode (Record.expiry put ttlSecs) v)

section

variable {s : RecordStore} {now put : Instant} {key k : String} {v : Bytes} {ttlSecs : UInt64}

theorem holds_put : (s.put put key v ttlSecs).Holds key v put ttlSecs := by
  rw [RecordStore.put, putRaw, Holds, Std.ExtTreeMap.getElem?_insert_self]

theorem holds_put_of_ne {value : Bytes} {ttl : UInt64} (hne : key ≠ k)
    (h : s.Holds k v put ttlSecs) : (s.put now key value ttl).Holds k v put ttlSecs := by
  rw [RecordStore.put, putRaw, Holds, Std.ExtTreeMap.getElem?_insert, if_neg (by simpa using hne)]
  exact h

/-- A read sees a value that is safe. -/
theorem check_of_holds (hput : put.IsReading) (hnow : now.IsReading)
    (hsafe : put.Outlasts ttlSecs now) (h : s.Holds key v put ttlSecs) :
    s.check now key = .live v := by
  obtain ⟨hlow, hhigh⟩ := Record.expiry_fits hput ttlSecs
  have hlive : ¬ Record.expiry put ttlSecs ≤ now.millis :=
    Int.not_le.mpr (Record.lt_expiry hput hnow hsafe)
  rw [check, show s.records[key]? = _ from h]
  simp only [Record.decode?_encode_of_fits hlow hhigh, if_neg hlive]

theorem holds_get (hput : put.IsReading) (hnow : now.IsReading) (hsafe : put.Outlasts ttlSecs now)
    (h : s.Holds k v put ttlSecs) : (s.get now key).2.Holds k v put ttlSecs := by
  by_cases hkey : key = k
  · rw [get, hkey, check_of_holds hput hnow hsafe h]
    exact h
  · unfold get
    split
    · exact h
    · exact h
    · unfold evict
      split
      · rw [Holds, Std.ExtTreeMap.getElem?_erase, if_neg (by simpa using hkey)]
        exact h
      · exact h
    · exact h

end

instance : LastingStore RecordStore where
  Holds := Holds
  holds_put _ := holds_put
  holds_put_of_ne := holds_put_of_ne
  holds_get := holds_get
  eq_of_holds {s now put key v ttlSecs r} hput hnow hsafe h hr := by
    have hget : (s.get now key).1 = .ok r := hr
    rw [get, check_of_holds hput hnow hsafe h] at hget
    exact (Except.ok.inj hget).symm

end RecordStore

/-! ## A store behind a fault plan -/

namespace FaultyStore

variable {σ : Type} [DurableStore σ] [LastingStore σ]

instance : LastingStore (FaultyStore σ) where
  Holds s := LastingStore.Holds s.inner
  holds_put {s put key v ttlSecs} h := by
    have hput : (s.put put key v ttlSecs).1 = .accepted := h
    show LastingStore.Holds (s.put put key v ttlSecs).2.inner key v put ttlSecs
    unfold FaultyStore.put at hput ⊢
    split at hput
    · cases hput
    · next habort =>
      split at hput
      · cases hput
      · next hrefuse =>
        rw [if_neg habort, if_neg hrefuse]
        exact LastingStore.holds_put hput
  holds_put_of_ne {s now put key k value v ttl ttlSecs} hne h := by
    show LastingStore.Holds (s.put now key value ttl).2.inner k v put ttlSecs
    unfold FaultyStore.put
    split
    · exact h
    · split
      · exact h
      · exact LastingStore.holds_put_of_ne hne h
  holds_get {s now put key k v ttlSecs} hput hnow hsafe h := by
    show LastingStore.Holds (s.get now key).2.inner k v put ttlSecs
    unfold FaultyStore.get
    dsimp only
    split
    · exact h
    · exact LastingStore.holds_get hput hnow hsafe h
  eq_of_holds {s now put key v ttlSecs r} hput hnow hsafe h hr := by
    have hget : (s.get now key).1 = .ok r := hr
    unfold FaultyStore.get at hget
    dsimp only at hget
    split at hget
    · cases hget
    · exact LastingStore.eq_of_holds hput hnow hsafe h hget

/-- What is held does not depend on the fault plan. -/
theorem holds_withPlan {s : FaultyStore σ} {plan : FaultPlan} {key : String} {v : Bytes}
    {put : Instant} {ttlSecs : UInt64} :
    LastingStore.Holds ({ s with plan } : FaultyStore σ) key v put ttlSecs ↔
      LastingStore.Holds s key v put ttlSecs :=
  Iff.rfl

end FaultyStore

end MarketCache
