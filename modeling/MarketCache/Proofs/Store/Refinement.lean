import Mathlib.Data.List.Forall2
import MarketCache.Proofs.Store.Lasting
import MarketCache.Proofs.Store.Local

/-!
# The store of records refines the store in memory

The two kinds of store are used side by side: the same writes, the same reads, and a clock that
shows the same and may be set back. The one counts expiries in instants, the other in whole
milliseconds, so that a record may be gone up to a millisecond before the value in memory, and
stays gone if the clock is set back. It is never the other way round, and where the clock shows
whole milliseconds only, there is no difference.

Main definitions:
* `StoreStep`, `StoreStep.answers`: uses of a store, and what its reads come to.
* `StoreStep.readings`: what the clock shows meanwhile.
* `RecordStore.Follows`: what the two stores have under a key.
* `RecordStore.Confirms`: how an answer of the one stands to that of the other.

Results:
* `expired_of_expired`, `expired_iff_of_isWhole`: the two expiries of a value.
* `follows_put`, `follows_get`: what a write and a read keep.
* `answers_follow`: what a whole use keeps.
* `refines_memory`: the answers of the two stores.
-/

namespace MarketCache

/-! ## Using a store -/

/-- A use of a store, or what its clock does meanwhile. -/
inductive StoreStep where
  | put (key : String) (value : Bytes) (ttlSecs : UInt64)
  | get (key : String)
  /-- The clock shows an instant from now on. -/
  | clock (now : Instant)
deriving DecidableEq, Repr

namespace StoreStep

variable {σ : Type} [DurableStore σ]

/-- What the reads among some uses come to, the oldest first; the clock shows `now` before
    them. -/
def answers (s : σ) (now : Instant) : List StoreStep → List (Except StoreError (Option Bytes))
  | [] => []
  | .put key value ttlSecs :: steps =>
    answers (DurableStore.put s now key value ttlSecs).2 now steps
  | .get key :: steps =>
    let (answer, s) := DurableStore.get s now key
    answer :: answers s now steps
  | .clock now :: steps => answers s now steps

/-- What the clock shows during some uses; it shows `now` before them. -/
def readings (now : Instant) (steps : List StoreStep) : List Instant :=
  now :: steps.filterMap fun step =>
    match step with
    | .clock now => some now
    | _ => none

end StoreStep

/-! ## The two expiries of a value -/

/-- Whether an instant lies on a whole millisecond. -/
def Instant.IsWhole (t : Instant) : Prop := t.nano % 1000000 = 0

instance (t : Instant) : Decidable t.IsWhole := inferInstanceAs (Decidable (_ = _))

section Expiry

variable {put now : Instant} {ttlSecs : UInt64}

/-- The two expiries of a value: its end, if there is an instant for it, and otherwise the latest
    expiry of either kind. -/
theorem expiry_cases (hput : put.IsReading) (ttlSecs : UInt64) :
    (∃ t : Instant, t.nano = put.nano ∧ MemoryStore.expiry put ttlSecs = t ∧
      Record.expiry put ttlSecs = t.millis) ∨
    MemoryStore.expiry put ttlSecs = .latest ∧
      Record.expiry put ttlSecs = Record.latestExpiry := by
  rw [MemoryStore.expiry, Record.expiry, Instant.add?_ofSeconds hput]
  by_cases hlate : put.second + ttlSecs.toNat ≤ Instant.latestSecond
  · rw [if_pos hlate]
    exact Or.inl ⟨⟨put.second + ttlSecs.toNat, put.nano⟩, rfl, rfl, rfl⟩
  · rw [if_neg hlate]
    exact Or.inr ⟨rfl, rfl⟩

/-- Milliseconds do not go back where instants do not. -/
theorem Instant.millis_le {t u : Instant} (ht : t.nano < 1000000000) (hle : t ≤ u) :
    t.millis ≤ u.millis := by
  rw [le_def] at hle
  unfold millis
  omega

/-- A value that has expired in memory has expired as a record. -/
theorem expired_of_expired (hput : put.IsReading) (hlast : now < .latest)
    (h : MemoryStore.expiry put ttlSecs ≤ now) : Record.expiry put ttlSecs ≤ now.millis := by
  rcases expiry_cases hput ttlSecs with ⟨t, hnano, hmemory, hrecord⟩ | ⟨hmemory, -⟩
  · rw [hrecord]
    rw [hmemory] at h
    exact Instant.millis_le (hnano ▸ Instant.nano_lt_of_not_isLeap hput.2) h
  · rw [hmemory] at h
    exact absurd h (Instant.not_le.mpr hlast)

/-- On whole milliseconds a value expires at the same time in memory and as a record. -/
theorem expired_iff_of_isWhole (hput : put.IsReading) (hnow : now.IsReading)
    (hlast : now < .latest) (hwhole : put.IsWhole) (hwhole' : now.IsWhole) :
    MemoryStore.expiry put ttlSecs ≤ now ↔ Record.expiry put ttlSecs ≤ now.millis := by
  refine ⟨expired_of_expired hput hlast, fun h => ?_⟩
  have hsmall := Instant.nano_lt_of_not_isLeap hput.2
  have hsmall' := Instant.nano_lt_of_not_isLeap hnow.2
  unfold Instant.IsWhole at hwhole hwhole'
  rcases expiry_cases hput ttlSecs with ⟨t, hnano, hmemory, hrecord⟩ | ⟨-, hrecord⟩
  · rw [hmemory, Instant.le_def]
    rw [hrecord] at h
    unfold Instant.millis at h
    omega
  · -- no clock comes to the latest expiry of a record
    have hrange : now.second ≤ Instant.latestSecond := hnow.1.2.1
    rw [hrecord] at h
    unfold Record.latestExpiry Instant.millis at h
    unfold Instant.latestSecond at hrange
    omega

end Expiry

/-! ## What a read finds -/

section Reads

variable {m : MemoryStore} {r : RecordStore} {put : Instant} {key : String} {v : Bytes}
  {ttlSecs : UInt64}

/-- A read of a key without a value. -/
theorem MemoryStore.get_of_none (h : m.values[key]? = none) (now : Instant) :
    m.get now key = (none, m) := by
  rw [get, check, h]

/-- A read of a value; one that has expired is gone then. -/
theorem MemoryStore.get_of_holds (h : m.Holds key v put ttlSecs) (now : Instant) :
    m.get now key = if expiry put ttlSecs ≤ now then (none, ⟨m.values.erase key⟩)
      else (some v, m) := by
  have hvalue : m.values[key]? = _ := h
  rw [get, check, hvalue]
  by_cases hexpired : expiry put ttlSecs ≤ now
  · simp only [StoredValue.isExpired, decide_eq_true hexpired, if_true, if_pos hexpired, evict,
      hvalue]
  · simp only [StoredValue.isExpired, decide_eq_false hexpired, Bool.false_eq_true, if_false,
      if_neg hexpired]

/-- A read of a key without a record. -/
theorem RecordStore.get_of_none (h : r.records[key]? = none) (now : Instant) :
    r.get now key = (.ok none, r) := by
  rw [get, check, h]

/-- A read of a record; one that has expired is gone then. -/
theorem RecordStore.get_of_holds (hput : put.IsReading) (h : r.Holds key v put ttlSecs)
    (now : Instant) :
    r.get now key = if Record.expiry put ttlSecs ≤ now.millis then
      (.ok none, ⟨r.records.erase key⟩) else (.ok (some v), r) := by
  obtain ⟨hlow, hhigh⟩ := Record.expiry_fits hput ttlSecs
  have hrecord : r.records[key]? = _ := h
  rw [get, check, hrecord]
  simp only [Record.decode?_encode_of_fits hlow hhigh]
  by_cases hexpired : Record.expiry put ttlSecs ≤ now.millis
  · simp only [if_pos hexpired, evict, if_pos hrecord]
  · simp only [if_neg hexpired]

end Reads

/-! ## The two stores side by side -/

namespace RecordStore

/-- Whether a store of records has a value under a key only if the store in memory has it, put at
    the same time; if `exact` holds, also the other way round. -/
def Follows (exact : Prop) (r : RecordStore) (m : MemoryStore) (key : String) : Prop :=
  r.records[key]? = none ∧ (exact → m.values[key]? = none) ∨
    ∃ v put ttlSecs, put.IsReading ∧ (exact → put.IsWhole) ∧
      r.Holds key v put ttlSecs ∧ m.Holds key v put ttlSecs

/-- Whether an answer of the store of records is one, and confirmed by the store in memory if it
    is a value; if `exact` holds, the two answers are the same. -/
def Confirms (exact : Prop) (answer answer' : Except StoreError (Option Bytes)) : Prop :=
  (∃ found, answer = .ok found ∧ ∀ v, found = some v → answer' = .ok (some v)) ∧
    (exact → answer = answer')

section Steps

variable {exact : Prop} {r : RecordStore} {m : MemoryStore} {now : Instant}

/-- What the relation at a key depends on. -/
theorem Follows.congr {key : String} {r' : RecordStore} {m' : MemoryStore}
    (h : r.Follows exact m key) (hrecord : r'.records[key]? = r.records[key]?)
    (hvalue : m'.values[key]? = m.values[key]?) : r'.Follows exact m' key := by
  unfold Follows Holds MemoryStore.Holds
  rw [hrecord, hvalue]
  exact h

theorem follows_put (hnow : now.IsReading) (hwhole : exact → now.IsWhole)
    (h : ∀ k, r.Follows exact m k) (key : String) (value : Bytes) (ttlSecs : UInt64) (k : String) :
    (r.put now key value ttlSecs).Follows exact (m.put now key value ttlSecs) k := by
  by_cases hkey : key = k
  · subst hkey
    exact Or.inr ⟨value, now, ttlSecs, hnow, hwhole, holds_put, MemoryStore.holds_put⟩
  · exact (h k).congr (records_put_of_ne hkey now value ttlSecs)
      (MemoryStore.values_put_of_ne hkey now value ttlSecs)

/-- A read of the same key of both stores: what it comes to, and what it leaves under the key. -/
theorem follows_get_self (hnow : now.IsReading) (hlast : now < .latest)
    (hwhole : exact → now.IsWhole) {key : String} (h : r.Follows exact m key) :
    Confirms exact (r.get now key).1 (.ok (m.get now key).1) ∧
      (r.get now key).2.Follows exact (m.get now key).2 key := by
  rcases h with ⟨hrecord, hvalue⟩ | ⟨v, put, ttlSecs, hput, hwhole', hrecord, hvalue⟩
  · -- without a record the store in memory may still have a value, and may keep it or not
    rw [get_of_none hrecord]
    refine ⟨⟨⟨none, rfl, fun v hv => by cases hv⟩, fun hexact => ?_⟩,
      Or.inl ⟨hrecord, fun hexact => ?_⟩⟩
    · rw [MemoryStore.get_of_none (hvalue hexact)]
    · rw [MemoryStore.get_of_none (hvalue hexact)]
      exact hvalue hexact
  · have herased : (⟨r.records.erase key⟩ : RecordStore).records[key]? = none :=
      Std.ExtTreeMap.getElem?_erase_self
    rw [get_of_holds hput hrecord, MemoryStore.get_of_holds hvalue]
    by_cases hexpired : Record.expiry put ttlSecs ≤ now.millis
    · rw [if_pos hexpired]
      refine ⟨⟨⟨none, rfl, fun v hv => by cases hv⟩, fun hexact => ?_⟩,
        Or.inl ⟨herased, fun hexact => ?_⟩⟩ <;>
        rw [if_pos ((expired_iff_of_isWhole hput hnow hlast (hwhole' hexact)
          (hwhole hexact)).mpr hexpired)]
      exact Std.ExtTreeMap.getElem?_erase_self
    · have hlive : ¬ MemoryStore.expiry put ttlSecs ≤ now := fun h =>
        hexpired (expired_of_expired hput hlast h)
      rw [if_neg hexpired, if_neg hlive]
      exact ⟨⟨⟨some v, rfl, fun _ hv => by rw [hv]⟩, fun _ => rfl⟩,
        Or.inr ⟨v, put, ttlSecs, hput, hwhole', hrecord, hvalue⟩⟩

theorem follows_get (hnow : now.IsReading) (hlast : now < .latest) (hwhole : exact → now.IsWhole)
    (h : ∀ k, r.Follows exact m k) (key k : String) :
    (r.get now key).2.Follows exact (m.get now key).2 k := by
  by_cases hkey : key = k
  · subst hkey
    exact (follows_get_self hnow hlast hwhole (h key)).2
  · exact (h k).congr (records_get_of_ne hkey now) (MemoryStore.values_get_of_ne hkey now)

/-- Each answer of the store of records is confirmed by the one of the store in memory. -/
theorem answers_follow {steps : List StoreStep}
    (hreadings : ∀ t ∈ StoreStep.readings now steps,
      t.IsReading ∧ t < .latest ∧ (exact → t.IsWhole))
    (h : ∀ k, r.Follows exact m k) :
    List.Forall₂ (Confirms exact) (StoreStep.answers r now steps)
      (StoreStep.answers m now steps) := by
  induction steps generalizing r m now with
  | nil => exact List.Forall₂.nil
  | cons step steps ih =>
    obtain ⟨hnow, hlast, hwhole⟩ := hreadings now List.mem_cons_self
    cases step with
    | put key value ttlSecs =>
      exact ih hreadings (follows_put hnow hwhole h key value ttlSecs)
    | get key =>
      exact List.Forall₂.cons (follows_get_self hnow hlast hwhole (h key)).1
        (ih hreadings (follows_get hnow hlast hwhole h key))
    | clock t => exact ih (fun u hu => hreadings u (List.mem_cons_of_mem _ hu)) h

end Steps

/-! ## The answers -/

/-- The two kinds of store, used alike from the start: the store of records answers every read, a
    value that it answers is the answer of the store in memory, and all answers are the same if
    the clock shows whole milliseconds only. -/
theorem refines_memory {start : Instant} {steps : List StoreStep}
    (hreadings : ∀ t ∈ StoreStep.readings start steps, t.IsReading ∧ t < .latest) :
    (StoreStep.answers empty start steps).length =
        (StoreStep.answers MemoryStore.empty start steps).length ∧
      (∀ answer ∈ StoreStep.answers empty start steps, ∃ found, answer = .ok found) ∧
      (∀ (i : Nat) (v : Bytes), (StoreStep.answers empty start steps)[i]? = some (.ok (some v)) →
        (StoreStep.answers MemoryStore.empty start steps)[i]? = some (.ok (some v))) ∧
      ((∀ t ∈ StoreStep.readings start steps, t.IsWhole) →
        StoreStep.answers empty start steps = StoreStep.answers MemoryStore.empty start steps) := by
  have hempty : ∀ exact k, empty.Follows exact .empty k := fun exact k =>
    Or.inl ⟨Std.ExtTreeMap.getElem?_empty, fun _ => Std.ExtTreeMap.getElem?_empty⟩
  have hfollow : List.Forall₂ (Confirms False) (StoreStep.answers empty start steps)
      (StoreStep.answers MemoryStore.empty start steps) := answers_follow
    (fun t ht => ⟨(hreadings t ht).1, (hreadings t ht).2, False.elim⟩) (hempty False)
  refine ⟨hfollow.length_eq, fun answer hanswer => ?_, fun i v hi => ?_, fun hwhole => ?_⟩
  · obtain ⟨i, hi, rfl⟩ := List.getElem_of_mem hanswer
    obtain ⟨⟨found, hfound, -⟩, -⟩ := List.Forall₂.get hfollow hi (hfollow.length_eq ▸ hi)
    exact ⟨found, hfound⟩
  · obtain ⟨hlt, hget⟩ := List.getElem?_eq_some_iff.mp hi
    have hlt' := hfollow.length_eq ▸ hlt
    obtain ⟨⟨found, hfound, hvalue⟩, -⟩ := List.Forall₂.get hfollow hlt hlt'
    cases Except.ok.inj (hget.symm.trans hfound)
    exact List.getElem?_eq_some_iff.mpr ⟨hlt', hvalue v rfl⟩
  · have hsame : List.Forall₂ (Confirms True) (StoreStep.answers empty start steps)
        (StoreStep.answers MemoryStore.empty start steps) := answers_follow
      (fun t ht => ⟨(hreadings t ht).1, (hreadings t ht).2, fun _ => hwhole t ht⟩) (hempty True)
    exact List.forall₂_eq_eq_eq ▸ hsame.imp fun _ _ h => h.2 trivial

/-- A value is read half a millisecond before its end at the epoch, and again when the clock has
    been set back; then another one is put and read. -/
def setBack : List StoreStep :=
  [.put "k" [1] 5, .clock ⟨0, 400000⟩, .get "k", .clock ⟨-3, 250000⟩, .get "k",
    .put "k" [2] 18446744073709551615, .get "k"]

/-- The record is gone at the first read and stays so, where the value in memory lives on; the
    value that is read in the end is the same. -/
theorem refines_memory_setBack :
    (∀ t ∈ StoreStep.readings ⟨-5, 500000⟩ setBack, t.IsReading ∧ t < .latest) ∧
      StoreStep.answers RecordStore.empty ⟨-5, 500000⟩ setBack =
        [.ok none, .ok none, .ok (some [2])] ∧
      (StoreStep.answers MemoryStore.empty ⟨-5, 500000⟩ setBack)[0]? = some (.ok (some [1])) ∧
      (StoreStep.answers MemoryStore.empty ⟨-5, 500000⟩ setBack)[2]? = some (.ok (some [2])) := by
  have hreadings : ∀ t ∈ StoreStep.readings ⟨-5, 500000⟩ setBack, t.IsReading ∧ t < .latest := by
    decide
  have hanswers : StoreStep.answers RecordStore.empty ⟨-5, 500000⟩ setBack =
      [.ok none, .ok none, .ok (some [2])] := by rfl
  refine ⟨hreadings, hanswers, by rfl, (refines_memory hreadings).2.2.1 2 [2] ?_⟩
  rw [hanswers]
  rfl

end RecordStore

end MarketCache
