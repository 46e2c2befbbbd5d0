import Mathlib.Data.List.Induction
import MarketCache.Proofs.Store.Refinement

/-!
# Reads that race with writes

A read looks at what is under its key, and removes it in a second step if it has expired. Other
reads and writes may come between the two, so that a removal may meet a value that the look has
never seen. The store in memory then judges again, by the instant at which the read began; the
store of records asks whether exactly the record of the look is still there, which may also be
one that was put again with the same bytes. As long as the clock does not go back, either way
spares what has not expired.

Main definitions:
* `TwoStepStore`: stores whose reads take two steps.
* `SparingStore`: those whose removals are harmless as long as the clock does not go back.
* `Race`, `Race.run`: reads and writes under way, and their steps in any order.
* `Race.SparesLive`, `Race.AnswersLast`: no removal meets a live value, and reads find the last
  one that was put.

Results:
* the instances: the store in memory and the store of records.
* `Race.sound_apply`, `Race.sound_run`: what a step and a run of them keep.
* `Race.removals_spare_live`: reads of either store remove nothing that has not expired.
-/

namespace MarketCache

/-! ## What a look finds and a removal leaves -/

section Looks

variable {m : MemoryStore} {r : RecordStore} {now begun : Instant} {key k : String} {v : Bytes}

theorem MemoryStore.check_eq_live_iff : m.check now key = .live v ↔
    ∃ kept, m.values[key]? = some kept ∧ ¬ kept.expiresAt ≤ now ∧ kept.value = v := by
  rw [check]
  rcases m.values[key]? with _ | kept
  · simp
  · by_cases hover : kept.expiresAt ≤ now
    · simp [StoredValue.isExpired, hover]
    · simp [StoredValue.isExpired, hover]

/-- A removal leaves a value that had not expired when the read began. -/
theorem MemoryStore.values_evict_of_live {kept : StoredValue} (h : m.values[k]? = some kept)
    (hlive : ¬ kept.expiresAt ≤ begun) (key : String) :
    (m.evict begun key).values[k]? = some kept := by
  unfold evict
  by_cases hkey : key = k
  · subst hkey
    simp only [h, StoredValue.isExpired, decide_eq_false hlive, Bool.false_eq_true, if_false]
  · split
    · exact h
    · split
      · rw [Std.ExtTreeMap.getElem?_erase, if_neg (by simpa using hkey), h]
      · exact h

theorem RecordStore.check_eq_live_iff : r.check now key = .live v ↔
    ∃ record expiry, r.records[key]? = some record ∧
      Record.decode? record = some (expiry, v) ∧ ¬ expiry ≤ now.millis := by
  unfold check
  constructor
  · intro h
    split at h
    · cases h
    · next record hrecord =>
      split at h
      · cases h
      · next expiry value hdecode =>
        split at h
        · cases h
        · next hlive =>
          cases h
          exact ⟨record, expiry, hrecord, hdecode, hlive⟩
  · rintro ⟨record, expiry, hrecord, hdecode, hlive⟩
    simp only [hrecord, hdecode, if_neg hlive]

/-- A record that a look has found expired has expired. -/
theorem RecordStore.expired_of_check {record : Bytes} (h : r.check now key = .expired record)
    {expiry : Int} (hdecode : Record.decode? record = some (expiry, v)) :
    expiry ≤ now.millis := by
  unfold check at h
  split at h
  · cases h
  · split at h
    · cases h
    · next hdecode' =>
      split at h
      · next hover =>
        cases h
        rw [hdecode'] at hdecode
        cases hdecode
        exact hover
      · cases h

/-- A removal leaves every other record. -/
theorem RecordStore.records_evict_of_ne {record memo : Bytes} (h : r.records[k]? = some record)
    (hne : record ≠ memo) (key : String) : (r.evict key memo).records[k]? = some record := by
  unfold evict
  split
  · next hheld =>
    by_cases hkey : key = k
    · subst hkey
      rw [h] at hheld
      exact absurd (Option.some.inj hheld) hne
    · rw [Std.ExtTreeMap.getElem?_erase, if_neg (by simpa using hkey), h]
  · exact h

end Looks

/-! ## Reads in two steps -/

/-- What the first step of a read comes to. -/
inductive Look (μ : Type) where
  /-- The read is over. -/
  | answers (answer : Except StoreError (Option Bytes))
  /-- What is under the key has expired; the read is to remove it, and answers nothing. -/
  | condemns (memo : μ)

/-- Stores whose reads look first, and remove what has expired in a step of its own. -/
class TwoStepStore (σ : Type) [DurableStore σ] where
  /-- What a read keeps in mind between its two steps. -/
  Memo : Type
  /-- The first step of a read that has begun at an instant, when the clock shows `now`. -/
  look : σ → (begun now : Instant) → (key : String) → Look Memo
  /-- The second step of a read. -/
  remove : σ → (key : String) → Memo → σ
  /-- Whether a value that was put at an instant has expired at `now`. -/
  IsOver : (put : Instant) → (ttlSecs : UInt64) → (now : Instant) → Prop
  /-- A read that nothing comes between. -/
  get_eq (s : σ) (now : Instant) (key : String) : DurableStore.get s now key =
    match look s now now key with
    | .answers answer => (answer, s)
    | .condemns memo => (.ok none, remove s key memo)

/-- A read of the store in memory keeps in mind when it has begun. -/
instance : TwoStepStore MemoryStore where
  Memo := Instant
  look s begun _ key :=
    match s.check begun key with
    | .absent => .answers (.ok none)
    | .live v => .answers (.ok (some v))
    | .expired => .condemns begun
  remove s key begun := s.evict begun key
  IsOver put ttlSecs now := MemoryStore.expiry put ttlSecs ≤ now
  get_eq s now key := by
    show (Except.ok (s.get now key).1, (s.get now key).2) = _
    rw [MemoryStore.get]
    rcases s.check now key with _ | v | _ <;> rfl

/-- A read of the store of records keeps in mind the record that it has met. -/
instance : TwoStepStore RecordStore where
  Memo := Bytes
  look s _ now key :=
    match s.check now key with
    | .absent => .answers (.ok none)
    | .live v => .answers (.ok (some v))
    | .expired record => .condemns record
    | .corrupted => .answers (.error (.corrupted key))
  remove s key record := s.evict key record
  IsOver put ttlSecs now := Record.expiry put ttlSecs ≤ now.millis
  get_eq s now key := by
    show s.get now key = _
    rw [RecordStore.get]
    rcases s.check now key with _ | v | _ | _ <;> rfl

/-- Two-step stores whose removals are harmless as long as the clock does not go back. -/
class SparingStore (σ : Type) [DurableStore σ] [LastingStore σ] [TwoStepStore σ] where
  /-- Whether what a read keeps in mind can do no harm to what is alive at `now`. -/
  IsHarmless : TwoStepStore.Memo σ → (now : Instant) → Prop
  accepts (s : σ) (put : Instant) (key : String) (v : Bytes) (ttlSecs : UInt64) :
    (DurableStore.put s put key v ttlSecs).1 = .accepted
  isOver_mono {put t now : Instant} {ttlSecs : UInt64} : t.IsReading → t ≤ now →
    TwoStepStore.IsOver σ put ttlSecs t → TwoStepStore.IsOver σ put ttlSecs now
  isHarmless_mono {memo : TwoStepStore.Memo σ} {t now : Instant} : t.IsReading → t ≤ now →
    IsHarmless memo t → IsHarmless memo now
  isHarmless_of_look {s : σ} {begun now : Instant} {key : String}
    {memo : TwoStepStore.Memo σ} : begun ≤ now →
      TwoStepStore.look s begun now key = .condemns memo → IsHarmless memo now
  look_remove {s : σ} {now : Instant} {key k : String} {v : Bytes}
    {memo : TwoStepStore.Memo σ} : IsHarmless memo now →
      TwoStepStore.look s now now k = .answers (.ok (some v)) →
        TwoStepStore.look (TwoStepStore.remove s key memo) now now k = .answers (.ok (some v))
  look_of_holds {s : σ} {put begun now : Instant} {key : String} {v : Bytes} {ttlSecs : UInt64} :
    put.IsReading → begun ≤ now → ¬ TwoStepStore.IsOver σ put ttlSecs now →
      LastingStore.Holds s key v put ttlSecs →
        TwoStepStore.look s begun now key = .answers (.ok (some v))
  holds_remove {s : σ} {put now : Instant} {key k : String} {v : Bytes} {ttlSecs : UInt64}
    {memo : TwoStepStore.Memo σ} : put.IsReading → IsHarmless memo now →
      ¬ TwoStepStore.IsOver σ put ttlSecs now → LastingStore.Holds s k v put ttlSecs →
        LastingStore.Holds (TwoStepStore.remove s key memo) k v put ttlSecs

namespace MemoryStore

variable {s : MemoryStore} {now begun : Instant} {key k : String} {v : Bytes}

theorem look_eq_answers_iff :
    TwoStepStore.look s begun now key = .answers (.ok (some v)) ↔ s.check begun key = .live v := by
  simp only [TwoStepStore.look]
  rcases s.check begun key with _ | v | _ <;> simp

instance : SparingStore MemoryStore where
  IsHarmless := fun (begun now : Instant) => begun ≤ now
  accepts _ _ _ _ _ := rfl
  isOver_mono _ hle hover := Instant.le_trans hover hle
  isHarmless_mono _ hle hold := Instant.le_trans hold hle
  isHarmless_of_look {s begun now key memo} hle hlook := by
    simp only [TwoStepStore.look] at hlook
    split at hlook
    · cases hlook
    · cases hlook
    · cases hlook
      exact hle
  look_remove {s now key k v begun} hbegun h := by
    rw [look_eq_answers_iff, check_eq_live_iff] at h ⊢
    obtain ⟨kept, hkept, hlive, rfl⟩ := h
    have hspared := values_evict_of_live hkept
      (fun hover => hlive (Instant.le_trans hover hbegun)) key
    exact ⟨kept, hspared, hlive, rfl⟩
  look_of_holds {s put begun now key v ttlSecs} _ hle hlive h := by
    rw [look_eq_answers_iff, check_eq_live_iff]
    exact ⟨_, h, fun hover => hlive (Instant.le_trans hover hle), rfl⟩
  holds_remove {s put now key k v ttlSecs begun} _ hbegun hlive h :=
    values_evict_of_live h (fun hover => hlive (Instant.le_trans hover hbegun)) key

end MemoryStore

namespace RecordStore

variable {s : RecordStore} {now begun : Instant} {key k : String} {v : Bytes}

theorem look_eq_answers_iff :
    TwoStepStore.look s begun now key = .answers (.ok (some v)) ↔ s.check now key = .live v := by
  simp only [TwoStepStore.look]
  rcases s.check now key with _ | v | _ | _ <;> simp

/-- A record that a read is to remove is one that has expired. -/
instance : SparingStore RecordStore where
  IsHarmless record now := ∀ expiry v, Record.decode? record = some (expiry, v) →
    expiry ≤ now.millis
  accepts _ _ _ _ _ := rfl
  isOver_mono ht hle hover :=
    Int.le_trans hover (Instant.millis_le (Instant.nano_lt_of_not_isLeap ht.2) hle)
  isHarmless_mono ht hle hold expiry v hdecode :=
    Int.le_trans (hold expiry v hdecode)
      (Instant.millis_le (Instant.nano_lt_of_not_isLeap ht.2) hle)
  isHarmless_of_look {s begun now key memo} _ hlook := by
    simp only [TwoStepStore.look] at hlook
    split at hlook
    · cases hlook
    · cases hlook
    · next record hcheck =>
      cases hlook
      exact fun expiry v hdecode => expired_of_check hcheck hdecode
    · cases hlook
  look_remove {s now key k v memo} hmemo h := by
    rw [look_eq_answers_iff, check_eq_live_iff] at h ⊢
    obtain ⟨record, expiry, hrecord, hdecode, hlive⟩ := h
    refine ⟨record, expiry, records_evict_of_ne hrecord ?_ key, hdecode, hlive⟩
    -- the same bytes would have been alive when the read looked at them
    rintro rfl
    exact hlive (hmemo expiry v hdecode)
  look_of_holds {s put begun now key v ttlSecs} hput _ hlive h := by
    obtain ⟨hlow, hhigh⟩ := Record.expiry_fits hput ttlSecs
    rw [look_eq_answers_iff, check_eq_live_iff]
    exact ⟨_, _, h, Record.decode?_encode_of_fits hlow hhigh v, hlive⟩
  holds_remove {s put now key k v ttlSecs memo} hput hmemo hlive h := by
    obtain ⟨hlow, hhigh⟩ := Record.expiry_fits hput ttlSecs
    refine records_evict_of_ne h ?_ key
    rintro rfl
    exact hlive (hmemo _ v (Record.decode?_encode_of_fits hlow hhigh v))

end RecordStore

/-! ## Races -/

/-- A use of a store that takes one step, or what its clock does meanwhile. -/
inductive RaceStep where
  /-- The clock goes on to an instant. -/
  | tick (now : Instant)
  /-- A write that has begun at an instant. -/
  | put (begun : Instant) (key : String) (value : Bytes) (ttlSecs : UInt64)
  /-- The first step of a read that has begun at an instant. -/
  | look (begun : Instant) (key : String)
  /-- The second step of a read, by its position among those that have still to take it. -/
  | remove (i : Nat)

/-- A value as it was put. -/
structure PutValue where
  value : Bytes
  begun : Instant
  ttlSecs : UInt64

/-- The value that a step puts under a key. -/
def RaceStep.put? (key : String) : RaceStep → Option PutValue
  | .put begun k value ttlSecs => if k = key then some ⟨value, begun, ttlSecs⟩ else none
  | _ => none

/-- The value that was put last under a key. -/
def RaceStep.lastPut? (key : String) (steps : List RaceStep) : Option PutValue :=
  (steps.filterMap (RaceStep.put? key)).getLast?

theorem RaceStep.lastPut?_concat (key : String) (steps : List RaceStep) (step : RaceStep) :
    lastPut? key (steps ++ [step]) = (step.put? key).or (lastPut? key steps) := by
  rw [lastPut?, List.filterMap_append, List.getLast?_append]
  cases hput : step.put? key <;> simp [hput, lastPut?]

/-- A store with the reads that have still to remove something. -/
structure Race (σ : Type) [DurableStore σ] [TwoStepStore σ] where
  store : σ
  clock : Instant
  removals : List (String × TwoStepStore.Memo σ)

namespace Race

variable {σ : Type} [DurableStore σ] [TwoStepStore σ]

/-- A store without reads under way. -/
def start (store : σ) (clock : Instant) : Race σ := ⟨store, clock, []⟩

/-- The race after a step. -/
def apply (s : Race σ) : RaceStep → Race σ
  | .tick now => { s with clock := now }
  | .put begun key value ttlSecs =>
    { s with store := (DurableStore.put s.store begun key value ttlSecs).2 }
  | .look begun key =>
    match TwoStepStore.look s.store begun s.clock key with
    | .answers _ => s
    | .condemns memo => { s with removals := s.removals ++ [(key, memo)] }
  | .remove i =>
    match s.removals[i]? with
    | none => s
    | some (key, memo) =>
      { s with store := TwoStepStore.remove s.store key memo, removals := s.removals.eraseIdx i }

/-- The race after some steps. -/
def run (s : Race σ) (steps : List RaceStep) : Race σ := steps.foldl apply s

/-- Whether a step keeps to the clock: that goes on only, and what takes a step has begun
    before. -/
def Admits (s : Race σ) : RaceStep → Prop
  | .tick now => now.IsReading ∧ s.clock ≤ now
  | .put begun _ _ _ => begun.IsReading ∧ begun ≤ s.clock
  | .look begun _ => begun.IsReading ∧ begun ≤ s.clock
  | .remove _ => True

instance (s : Race σ) (step : RaceStep) : Decidable (s.Admits step) :=
  match step with
  | .tick _ => inferInstanceAs (Decidable (_ ∧ _))
  | .put _ _ _ _ => inferInstanceAs (Decidable (_ ∧ _))
  | .look _ _ => inferInstanceAs (Decidable (_ ∧ _))
  | .remove _ => inferInstanceAs (Decidable True)

/-- Whether all steps keep to the clock. -/
def IsOrderly (s : Race σ) : List RaceStep → Prop
  | [] => True
  | step :: steps => s.Admits step ∧ (s.apply step).IsOrderly steps

instance decidableIsOrderly (s : Race σ) : (steps : List RaceStep) → Decidable (s.IsOrderly steps)
  | [] => inferInstanceAs (Decidable True)
  | step :: steps =>
    have := decidableIsOrderly (s.apply step) steps
    inferInstanceAs (Decidable (_ ∧ _))

/-- Whether a removal never takes away what a read would find at that moment. -/
def SparesLive (s : Race σ) : Prop :=
  ∀ (i : Nat) (key : String) (v : Bytes),
    TwoStepStore.look s.store s.clock s.clock key = .answers (.ok (some v)) →
      TwoStepStore.look (s.apply (.remove i)).store s.clock s.clock key = .answers (.ok (some v))

/-- Whether a read that looks now finds the value that some steps put last under its key, unless
    that has expired. -/
def AnswersLast (s : Race σ) (steps : List RaceStep) : Prop :=
  ∀ (key : String) (last : PutValue) (begun : Instant),
    RaceStep.lastPut? key steps = some last →
      ¬ TwoStepStore.IsOver σ last.begun last.ttlSecs s.clock → begun ≤ s.clock →
        TwoStepStore.look s.store begun s.clock key = .answers (.ok (some last.value))

theorem run_concat (s : Race σ) (steps : List RaceStep) (step : RaceStep) :
    s.run (steps ++ [step]) = (s.run steps).apply step := by
  rw [run, List.foldl_append]
  rfl

theorem isOrderly_concat {s : Race σ} {steps : List RaceStep} {step : RaceStep} :
    s.IsOrderly (steps ++ [step]) ↔ s.IsOrderly steps ∧ (s.run steps).Admits step := by
  induction steps generalizing s with
  | nil => simp [IsOrderly, run]
  | cons first steps ih =>
    rw [List.cons_append, IsOrderly, IsOrderly, ih, and_assoc]
    rfl

/-! ## What steps keep -/

variable [LastingStore σ] [SparingStore σ]

/-- What holds of a race as long as the clock does not go back: no removal that is still to come
    can do harm, and the store has the values that some steps put last, unless they have
    expired. -/
structure Sound (s : Race σ) (steps : List RaceStep) : Prop where
  reading : s.clock.IsReading
  harmless : ∀ removal ∈ s.removals, SparingStore.IsHarmless removal.2 s.clock
  put_reading : ∀ key last, RaceStep.lastPut? key steps = some last → last.begun.IsReading
  holds : ∀ key last, RaceStep.lastPut? key steps = some last →
    ¬ TwoStepStore.IsOver σ last.begun last.ttlSecs s.clock →
      LastingStore.Holds s.store key last.value last.begun last.ttlSecs

theorem sound_start {clock : Instant} (hclock : clock.IsReading) (store : σ) :
    (start store clock).Sound [] where
  reading := hclock
  harmless _ hmem := by cases hmem
  put_reading _ _ h := by cases h
  holds _ _ h := by cases h

/-- A step that keeps to the clock. -/
theorem sound_apply {s : Race σ} {steps : List RaceStep} (h : s.Sound steps) {step : RaceStep}
    (hadmits : s.Admits step) : (s.apply step).Sound (steps ++ [step]) := by
  have hsame : (∀ key, step.put? key = none) → ∀ key,
      RaceStep.lastPut? key (steps ++ [step]) = RaceStep.lastPut? key steps := fun hnone key => by
    rw [RaceStep.lastPut?_concat, hnone]
    rfl
  cases step with
  | tick now =>
    have hlast := hsame fun _ => rfl
    refine ⟨hadmits.1, fun removal hmem => ?_, fun key last hput => ?_,
      fun key last hput hlive => ?_⟩
    · exact SparingStore.isHarmless_mono h.reading hadmits.2 (h.harmless removal hmem)
    · exact h.put_reading key last (hlast key ▸ hput)
    · exact h.holds key last (hlast key ▸ hput) fun hover =>
        hlive (SparingStore.isOver_mono h.reading hadmits.2 hover)
  | put begun key value ttlSecs =>
    refine ⟨h.reading, h.harmless, fun k last hput => ?_, fun k last hput hlive => ?_⟩
    · rw [RaceStep.lastPut?_concat, RaceStep.put?] at hput
      split at hput
      · cases hput
        exact hadmits.1
      · exact h.put_reading k last hput
    · rw [RaceStep.lastPut?_concat, RaceStep.put?] at hput
      split at hput
      · next heq =>
        cases hput
        exact heq ▸ LastingStore.holds_put (SparingStore.accepts _ _ _ _ _)
      · next hne => exact LastingStore.holds_put_of_ne hne (h.holds k last hput hlive)
  | look begun key =>
    have hlast := hsame fun _ => rfl
    rcases hlook : TwoStepStore.look s.store begun s.clock key with answer | memo
    · have hidle : s.apply (.look begun key) = s := by simp only [apply, hlook]
      rw [hidle]
      exact ⟨h.reading, h.harmless, fun k last hput => h.put_reading k last (hlast k ▸ hput),
        fun k last hput => h.holds k last (hlast k ▸ hput)⟩
    · have happly : s.apply (.look begun key) =
          { s with removals := s.removals ++ [(key, memo)] } := by
        simp only [apply, hlook]
      rw [happly]
      refine ⟨h.reading, fun removal hmem => ?_, fun k last hput =>
        h.put_reading k last (hlast k ▸ hput), fun k last hput => h.holds k last (hlast k ▸ hput)⟩
      rcases List.mem_append.mp hmem with hmem | hmem
      · exact h.harmless removal hmem
      · cases List.mem_singleton.mp hmem
        exact SparingStore.isHarmless_of_look hadmits.2 hlook
  | remove i =>
    have hlast := hsame fun _ => rfl
    rcases hremoval : s.removals[i]? with _ | ⟨key, memo⟩
    · have hidle : s.apply (.remove i) = s := by simp only [apply, hremoval]
      rw [hidle]
      exact ⟨h.reading, h.harmless, fun k last hput => h.put_reading k last (hlast k ▸ hput),
        fun k last hput => h.holds k last (hlast k ▸ hput)⟩
    · have happly : s.apply (.remove i) = { s with
          store := TwoStepStore.remove s.store key memo, removals := s.removals.eraseIdx i } := by
        simp only [apply, hremoval]
      have hmemo := h.harmless (key, memo) (List.mem_of_getElem? hremoval)
      rw [happly]
      refine ⟨h.reading, fun removal hmem => h.harmless removal (List.mem_of_mem_eraseIdx hmem),
        fun k last hput => h.put_reading k last (hlast k ▸ hput), fun k last hput hlive => ?_⟩
      have hput := hlast k ▸ hput
      exact SparingStore.holds_remove (h.put_reading k last hput) hmemo hlive
        (h.holds k last hput hlive)

/-- Steps that keep to the clock, in any order. -/
theorem sound_run {store : σ} {clock : Instant} (hclock : clock.IsReading)
    {steps : List RaceStep} (horderly : (start store clock).IsOrderly steps) :
    ((start store clock).run steps).Sound steps := by
  induction steps using List.reverseRecOn with
  | nil => exact sound_start hclock store
  | append_singleton steps step ih =>
    obtain ⟨hsteps, hadmits⟩ := isOrderly_concat.mp horderly
    rw [run_concat]
    exact sound_apply (ih hsteps) hadmits

theorem Sound.sparesLive {s : Race σ} {steps : List RaceStep} (h : s.Sound steps) :
    s.SparesLive := by
  intro i key v hlook
  rcases hremoval : s.removals[i]? with _ | ⟨k, memo⟩
  · simp only [apply, hremoval]
    exact hlook
  · simp only [apply, hremoval]
    exact SparingStore.look_remove (h.harmless (k, memo) (List.mem_of_getElem? hremoval)) hlook

theorem Sound.answersLast {s : Race σ} {steps : List RaceStep} (h : s.Sound steps) :
    s.AnswersLast steps := fun key last _ hput hlive hbegun =>
  SparingStore.look_of_holds (h.put_reading key last hput) hbegun hlive
    (h.holds key last hput hlive)

/-! ## Either kind of store -/

/-- However reads and writes interleave while the clock does not go back, a removal never takes
    away a value that has not expired, and a read that looks before the value put last has expired
    finds that value: in the store in memory, and in the store of records. -/
theorem removals_spare_live :
    (∀ {store : MemoryStore} {clock : Instant} {steps : List RaceStep}, clock.IsReading →
      (start store clock).IsOrderly steps →
        ((start store clock).run steps).SparesLive ∧
          ((start store clock).run steps).AnswersLast steps) ∧
    (∀ {store : RecordStore} {clock : Instant} {steps : List RaceStep}, clock.IsReading →
      (start store clock).IsOrderly steps →
        ((start store clock).run steps).SparesLive ∧
          ((start store clock).run steps).AnswersLast steps) := by
  constructor <;> intro store clock steps hclock horderly
  · have hsound := sound_run hclock horderly
    exact ⟨hsound.sparesLive, hsound.answersLast⟩
  · have hsound := sound_run hclock horderly
    exact ⟨hsound.sparesLive, hsound.answersLast⟩

/-- Two reads look at an expired value; what the first of them removes is the same value, put
    again for no time at all, and by the time of the second it has been put for longer. -/
def putAgain : List RaceStep :=
  [.put ⟨0, 0⟩ "k" [1] 1, .tick ⟨1, 0⟩, .look ⟨1, 0⟩ "k", .look ⟨1, 0⟩ "k",
    .put ⟨1, 0⟩ "k" [1] 0, .remove 0, .tick ⟨1, 500000⟩, .put ⟨1, 0⟩ "k" [1] 5]

/-- Whether the second removal is still to come after these steps, and spares the value. -/
def SparesPutAgain (s : Race σ) : Prop :=
  s.IsOrderly putAgain ∧ (s.run putAgain).removals.length = 1 ∧
    TwoStepStore.look ((s.run putAgain).apply (.remove 0)).store ⟨1, 500000⟩ ⟨1, 500000⟩ "k" =
      .answers (.ok (some [1]))

theorem removals_spare_live_putAgain :
    SparesPutAgain (start MemoryStore.empty ⟨0, 0⟩) ∧
      SparesPutAgain (start RecordStore.empty ⟨0, 0⟩) := by
  constructor
  · have horderly : (start MemoryStore.empty ⟨0, 0⟩).IsOrderly putAgain := by decide
    obtain ⟨hspares, hanswers⟩ := removals_spare_live.1 (by decide) horderly
    have hlive : ¬ MemoryStore.expiry ⟨1, 0⟩ 5 ≤ ⟨1, 500000⟩ := by decide
    exact ⟨horderly, by rfl, hspares 0 "k" [1]
      (hanswers "k" ⟨[1], ⟨1, 0⟩, 5⟩ ⟨1, 500000⟩ (by rfl) hlive (by decide))⟩
  · have horderly : (start RecordStore.empty ⟨0, 0⟩).IsOrderly putAgain := by decide
    obtain ⟨hspares, hanswers⟩ := removals_spare_live.2 (by decide) horderly
    have hlive : ¬ Record.expiry ⟨1, 0⟩ 5 ≤ Instant.millis ⟨1, 500000⟩ := by decide
    exact ⟨horderly, by rfl, hspares 0 "k" [1]
      (hanswers "k" ⟨[1], ⟨1, 0⟩, 5⟩ ⟨1, 500000⟩ (by rfl) hlive (by decide))⟩

end Race

end MarketCache
