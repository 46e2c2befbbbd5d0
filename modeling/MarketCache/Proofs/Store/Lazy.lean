import Mathlib.Data.Finset.Card
import Mathlib.Data.List.Induction
import MarketCache.Proofs.Store.Refinement

/-!
# Lazy expiry

The store in memory keeps a value beyond its end until a read of its key comes across it. As long
as the clock does not go back this is seen in the size of the store only: a read finds the value
that was put last under its key until the time to live of that value is over, whatever other reads
there were.

Main definitions:
* `StoreStep.leaves`, `StoreStep.reading`: the store and the clock after some uses.
* `StoreStep.LastPut`: the value that was put last under a key.
* `MemoryStore.Met`: a read has come across a value at its end.
* `MemoryStore.answer`: what a read comes to after some uses.

Results:
* `MemoryStore.expiry_eq`: the end of a time to live.
* `MemoryStore.values_of_lastPut`, `MemoryStore.mem_values_iff`: what is under a key after uses.
* `MemoryStore.answer_of_lastPut`: what a read comes to, whether or not there were others.
* `MemoryStore.lazy_expiry_unseen`: the answers and the size.
-/

namespace MarketCache

/-! ## The store and the clock after some uses -/

namespace StoreStep

section Uses

variable {σ : Type} [DurableStore σ]

/-- The store after some uses; the clock shows `now` before them. -/
def leaves (s : σ) (now : Instant) : List StoreStep → σ
  | [] => s
  | .put key value ttlSecs :: steps => leaves (DurableStore.put s now key value ttlSecs).2 now steps
  | .get key :: steps => leaves (DurableStore.get s now key).2 now steps
  | .clock now :: steps => leaves s now steps

/-- What the clock shows after some uses; it shows `now` before them. -/
def reading (now : Instant) (steps : List StoreStep) : Instant :=
  (readings now steps).getLast (List.cons_ne_nil _ _)

theorem leaves_append (s : σ) (now : Instant) (steps more : List StoreStep) :
    leaves s now (steps ++ more) = leaves (leaves s now steps) (reading now steps) more := by
  induction steps generalizing s now with
  | nil => rfl
  | cons step steps ih =>
    cases step with
    | put key value ttlSecs => exact ih _ now
    | get key => exact ih _ now
    | clock t => exact ih s t

theorem answers_append (s : σ) (now : Instant) (steps more : List StoreStep) :
    answers s now (steps ++ more) =
      answers s now steps ++ answers (leaves s now steps) (reading now steps) more := by
  induction steps generalizing s now with
  | nil => rfl
  | cons step steps ih =>
    cases step with
    | put key value ttlSecs => exact ih _ now
    | get key => exact congrArg (_ :: ·) (ih _ now)
    | clock t => exact ih s t

/-- A clock that does not go back shows no less than it has shown before. -/
theorem reading_le {now : Instant} {steps more : List StoreStep}
    (hclock : (readings now (steps ++ more)).Pairwise (· ≤ ·)) :
    reading now steps ≤ reading now (steps ++ more) := by
  obtain ⟨shown, hshown⟩ : ∃ shown, readings now (steps ++ more) = readings now steps ++ shown :=
    ⟨_, by rw [readings, List.filterMap_append]; rfl⟩
  unfold reading
  simp only [hshown] at hclock ⊢
  rcases List.eq_nil_or_concat shown with rfl | ⟨earlier, last, rfl⟩
  · simp only [List.append_nil]
    exact Instant.le_refl _
  · have hmem := List.getLast_mem (l := readings now steps) (List.cons_ne_nil _ _)
    have hle := (List.pairwise_append.mp hclock).2.2 _ hmem last (by simp)
    simpa using hle

end Uses

/-! ## What was put last -/

/-- Whether a use is a read. -/
def isRead : StoreStep → Bool
  | .get _ => true
  | _ => false

/-- The uses but for the reads. -/
def withoutReads (steps : List StoreStep) : List StoreStep := steps.filter fun step => !step.isRead

/-- Whether a value was put last under a key, between the uses `early` and the uses `late`. -/
structure LastPut (steps : List StoreStep) (key : String) (value : Bytes) (ttlSecs : UInt64)
    (early late : List StoreStep) : Prop where
  split : steps = early ++ .put key value ttlSecs :: late
  last : ∀ v ttl, .put key v ttl ∉ late

section LastPut

variable {steps steps' early late : List StoreStep} {step : StoreStep} {key : String}
  {value : Bytes} {ttlSecs : UInt64}

theorem lastPut_concat (steps : List StoreStep) (key : String) (value : Bytes)
    (ttlSecs : UInt64) :
    LastPut (steps ++ [.put key value ttlSecs]) key value ttlSecs steps [] :=
  ⟨rfl, fun _ _ => List.not_mem_nil⟩

/-- A value stays the last one until another one is put. -/
theorem LastPut.concat (h : LastPut steps key value ttlSecs early late)
    (hstep : ∀ v ttl, step ≠ .put key v ttl) :
    LastPut (steps ++ [step]) key value ttlSecs early (late ++ [step]) where
  split := by rw [h.split, List.append_assoc, List.cons_append]
  last v ttl hmem := by
    rcases List.mem_append.mp hmem with hmem | hmem
    · exact h.last v ttl hmem
    · exact hstep v ttl (List.mem_singleton.mp hmem).symm

/-- The value that was put last before one more use, or by it. -/
theorem LastPut.of_concat (h : LastPut (steps ++ [step]) key value ttlSecs early late) :
    step = .put key value ttlSecs ∧ early = steps ∧ late = [] ∨
      ∃ late', late = late' ++ [step] ∧ LastPut steps key value ttlSecs early late' ∧
        ∀ v ttl, step ≠ .put key v ttl := by
  obtain ⟨hsplit, hlast⟩ := h
  rcases List.eq_nil_or_concat late with rfl | ⟨late', x, rfl⟩
  · obtain ⟨rfl, hstep⟩ := List.append_inj' hsplit rfl
    exact Or.inl ⟨(List.cons.inj hstep).1, rfl, rfl⟩
  · rw [List.concat_eq_append, ← List.cons_append, ← List.append_assoc] at hsplit
    obtain ⟨rfl, hstep⟩ := List.append_inj' hsplit rfl
    obtain rfl := (List.cons.inj hstep).1
    rw [List.concat_eq_append] at hlast ⊢
    refine Or.inr ⟨late', rfl, ⟨rfl, fun v ttl hmem => hlast v ttl ?_⟩, fun v ttl hput => ?_⟩
    · exact List.mem_append_left _ hmem
    · exact hlast v ttl (hput ▸ List.mem_append_right _ List.mem_cons_self)

/-- Reads leave the clock alone. -/
theorem readings_withoutReads (now : Instant) (steps : List StoreStep) :
    readings now (withoutReads steps) = readings now steps := by
  unfold readings withoutReads
  rw [List.filterMap_filter]
  congr 2
  funext step
  cases step <;> rfl

theorem reading_withoutReads (now : Instant) (steps : List StoreStep) :
    reading now (withoutReads steps) = reading now steps := by
  unfold reading
  simp only [readings_withoutReads]

/-- The value put last is the same whatever reads there were. -/
theorem LastPut.of_withoutReads_eq (h : LastPut steps key value ttlSecs early late)
    (heq : withoutReads steps' = withoutReads steps) :
    ∃ early' late', LastPut steps' key value ttlSecs early' late' ∧
      ∀ now, reading now early' = reading now early := by
  have hsplit : withoutReads steps' =
      withoutReads early ++ .put key value ttlSecs :: withoutReads late := by
    rw [heq, h.split, withoutReads, List.filter_append]
    rfl
  obtain ⟨front, back, rfl, hfront, hback⟩ := List.filter_eq_append_iff.mp hsplit
  obtain ⟨reads, late', rfl, hreads, -, hlate⟩ := List.filter_eq_cons_iff.mp hback
  refine ⟨front ++ reads, late', ⟨(List.append_assoc _ _ _).symm, fun v ttl hmem => ?_⟩,
    fun now => ?_⟩
  · have hmem' : .put key v ttl ∈ withoutReads late' := List.mem_filter.mpr ⟨hmem, rfl⟩
    rw [show withoutReads late' = withoutReads late from hlate] at hmem'
    exact h.last v ttl (List.mem_filter.mp hmem').1
  · have hnone : withoutReads reads = [] := List.filter_eq_nil_iff.mpr hreads
    have hsame : withoutReads (front ++ reads) = withoutReads early := by
      rw [withoutReads, List.filter_append]
      exact (congrArg₂ (· ++ ·) hfront hnone).trans (List.append_nil _)
    rw [← reading_withoutReads, hsame, reading_withoutReads]

/-- Nothing was put under a key, or something was put last. -/
theorem exists_lastPut_or (steps : List StoreStep) (key : String) :
    (∀ v ttl, .put key v ttl ∉ steps) ∨
      ∃ value ttlSecs early late, LastPut steps key value ttlSecs early late := by
  induction steps using List.reverseRecOn with
  | nil => exact Or.inl fun _ _ => List.not_mem_nil
  | append_singleton steps step ih =>
    by_cases hstep : ∃ v ttl, step = .put key v ttl
    · obtain ⟨v, ttl, rfl⟩ := hstep
      exact Or.inr ⟨v, ttl, steps, [], lastPut_concat steps key v ttl⟩
    · have hother : ∀ v ttl, step ≠ .put key v ttl := fun v ttl h => hstep ⟨v, ttl, h⟩
      rcases ih with hnone | ⟨value, ttlSecs, early, late, h⟩
      · refine Or.inl fun v ttl hmem => ?_
        rcases List.mem_append.mp hmem with hmem | hmem
        · exact hnone v ttl hmem
        · exact hother v ttl (List.mem_singleton.mp hmem).symm
      · exact Or.inr ⟨value, ttlSecs, early, late ++ [step], h.concat hother⟩

end LastPut

end StoreStep

/-! ## The end of a time to live -/

/-- A configured length that is not zero has whole seconds. -/
theorem Duration.wholeSeconds_pos {n : UInt64} (h : n ≠ 0) : 0 < (ofSeconds n).wholeSeconds := by
  have hpos : 0 < n.toNat := Nat.pos_iff_ne_zero.mpr fun hzero => h (UInt64.toNat_inj.mp hzero)
  by_cases hshort : n.toNat ≤ 9223372036854775
  · have hwhole : (ofSeconds n).wholeSeconds = n.toNat := by
      rw [ofSeconds_of_le hshort, wholeSeconds]
      exact Int.mul_tdiv_cancel _ (by decide)
    omega
  · rw [show ofSeconds n = .longest from if_neg hshort]
    decide

/-- What leads out of a leap second goes on as if from the second before it. -/
theorem Instant.add?_of_isLeap {put : Instant} (hput : put.Representable)
    (hleap : put.isLeap = true) {d : Duration} (hd : 0 < d.wholeSeconds) :
    put.add? d = add? ⟨put.second, put.nano - 1000000000⟩ d := by
  have hnano := hput.2.2
  have hplain : isLeap ⟨put.second, put.nano - 1000000000⟩ = false :=
    decide_eq_false (by dsimp only; omega)
  have hleaves : put.staysInLeap d = false := by
    have hne : (d.wholeSeconds == 0) = false := beq_eq_false_iff_ne.mpr (Int.ne_of_gt hd)
    simp only [staysInLeap, hne, Bool.and_false, Bool.false_and]
  have houtside : put.outsideLeap d = ⟨put.second, put.nano - 1000000000⟩ := by
    rw [outsideLeap, if_pos hleap, if_neg (Int.not_lt.mpr (Int.le_of_lt hd))]
  have hleaves' : staysInLeap ⟨put.second, put.nano - 1000000000⟩ d = false := by
    rw [staysInLeap, hplain, Bool.false_and, Bool.false_and]
  have houtside' : outsideLeap ⟨put.second, put.nano - 1000000000⟩ d =
      ⟨put.second, put.nano - 1000000000⟩ := if_neg (Bool.eq_false_iff.mp hplain)
  simp only [add?, hleaves, houtside, hleaves', houtside', Bool.false_eq_true, if_false]

/-- Nothing added in a leap second leads nowhere. -/
theorem Instant.add?_zero_of_isLeap {put : Instant} (hleap : put.isLeap = true) :
    put.add? (.ofSeconds 0) = some put := by
  have hstays : put.staysInLeap (.ofSeconds 0) = true := by
    rw [staysInLeap, hleap]
    rfl
  rw [add?, if_pos hstays]
  cases put
  rfl

namespace MemoryStore

open StoreStep

/-- A value ends so many seconds after it was put, or at the latest instant if that is later; what
    of a leap second was over when it was put does not count, unless the end is at once. -/
theorem expiry_eq {put : Instant} (hput : put.Representable) (ttlSecs : UInt64) :
    expiry put ttlSecs =
      if put.second + ttlSecs.toNat ≤ Instant.latestSecond then
        ⟨put.second + ttlSecs.toNat, if ttlSecs = 0 then put.nano else put.nano % 1000000000⟩
      else .latest := by
  have hreading : ∀ t : Instant, t.IsReading → expiry t ttlSecs =
      if t.second + ttlSecs.toNat ≤ Instant.latestSecond then ⟨t.second + ttlSecs.toNat, t.nano⟩
      else .latest := by
    intro t ht
    rw [expiry, Instant.add?_ofSeconds ht]
    split <;> rfl
  by_cases hleap : put.isLeap = true
  · have hlow : 1000000000 ≤ put.nano := of_decide_eq_true hleap
    have hhigh := hput.2.2
    by_cases hzero : ttlSecs = 0
    · subst hzero
      rw [expiry, Instant.add?_zero_of_isLeap hleap, if_pos (by simpa using hput.2.1), if_pos rfl]
      cases put
      simp
    · have hmod : put.nano % 1000000000 = put.nano - 1000000000 := by omega
      have hplain : Instant.IsReading ⟨put.second, put.nano - 1000000000⟩ :=
        ⟨⟨hput.1, hput.2.1, by dsimp only; omega⟩, decide_eq_false (by dsimp only; omega)⟩
      rw [expiry, Instant.add?_of_isLeap hput hleap (Duration.wholeSeconds_pos hzero), if_neg hzero,
        hmod]
      exact hreading _ hplain
  · rw [hreading put ⟨hput, Bool.eq_false_iff.mpr hleap⟩]
    have hnano := Instant.nano_lt_of_not_isLeap (Bool.eq_false_iff.mpr hleap)
    rw [Nat.mod_eq_of_lt hnano, ite_self]

/-! ## What is under a key -/

/-- Whether a read has come across the value that was put between some uses, at its end or
    later. -/
def Met (start : Instant) (key : String) (value : Bytes) (ttlSecs : UInt64)
    (early late : List StoreStep) : Prop :=
  ∃ between rest, late = between ++ .get key :: rest ∧
    expiry (reading start early) ttlSecs ≤
      reading start (early ++ .put key value ttlSecs :: between)

section Uses

variable {start : Instant} {steps early late : List StoreStep} {step : StoreStep} {key : String}
  {value : Bytes} {ttlSecs : UInt64}

theorem not_met_nil : ¬ Met start key value ttlSecs early [] := by
  rintro ⟨between, rest, hsplit, -⟩
  exact absurd hsplit (by simp)

/-- A read comes across a value before one more use, or by it. -/
theorem met_concat_iff : Met start key value ttlSecs early (late ++ [step]) ↔
    Met start key value ttlSecs early late ∨
      step = .get key ∧ expiry (reading start early) ttlSecs ≤
        reading start (early ++ .put key value ttlSecs :: late) := by
  constructor
  · rintro ⟨between, rest, hsplit, hover⟩
    rcases List.eq_nil_or_concat rest with rfl | ⟨rest, x, rfl⟩
    · obtain ⟨rfl, hstep⟩ := List.append_inj' hsplit rfl
      exact Or.inr ⟨(List.cons.inj hstep).1, hover⟩
    · rw [List.concat_eq_append, ← List.cons_append, ← List.append_assoc] at hsplit
      exact Or.inl ⟨between, rest, (List.append_inj' hsplit rfl).1, hover⟩
  · rintro (⟨between, rest, rfl, hover⟩ | ⟨rfl, hover⟩)
    · exact ⟨between, rest ++ [step], List.append_assoc _ _ _, hover⟩
    · exact ⟨late, [], rfl, hover⟩

/-- One more use, as the store sees it. -/
theorem leaves_concat (start : Instant) (steps : List StoreStep) (step : StoreStep) :
    leaves empty start (steps ++ [step]) =
      match step with
      | .put key value ttlSecs =>
        (leaves empty start steps).put (reading start steps) key value ttlSecs
      | .get key => ((leaves empty start steps).get (reading start steps) key).2
      | .clock _ => leaves empty start steps := by
  rw [leaves_append]
  cases step <;> rfl

/-- A use changes what is under a key only if it is one of that key. -/
theorem values_concat_of_ne (hput : ∀ v ttl, step ≠ .put key v ttl) (hget : step ≠ .get key) :
    (leaves empty start (steps ++ [step])).values[key]? =
      (leaves empty start steps).values[key]? := by
  rw [leaves_concat]
  cases step with
  | put k v ttl =>
    have hne : k ≠ key := fun h => hput v ttl (by rw [h])
    exact values_put_of_ne hne _ v ttl
  | get k =>
    have hne : k ≠ key := fun h => hget (by rw [h])
    exact values_get_of_ne hne _
  | clock t => rfl

/-- There is nothing under a key before anything is put there. -/
theorem values_of_not_put (h : ∀ v ttl, .put key v ttl ∉ steps) :
    (leaves empty start steps).values[key]? = none := by
  induction steps using List.reverseRecOn with
  | nil => exact Std.ExtTreeMap.getElem?_empty
  | append_singleton steps step ih =>
    have hnone := ih fun v ttl hmem => h v ttl (List.mem_append_left _ hmem)
    have hput : ∀ v ttl, step ≠ .put key v ttl := fun v ttl heq =>
      h v ttl (heq ▸ List.mem_append_right _ List.mem_cons_self)
    by_cases hget : step = .get key
    · rw [leaves_concat, hget]
      dsimp only
      rw [get_of_none hnone]
      exact hnone
    · rw [values_concat_of_ne hput hget, hnone]

/-- The value that was put last is under its key until a read comes across it at its end. -/
theorem values_of_lastPut (start : Instant) (h : LastPut steps key value ttlSecs early late) :
    (Met start key value ttlSecs early late →
        (leaves empty start steps).values[key]? = none) ∧
      (¬ Met start key value ttlSecs early late →
        (leaves empty start steps).Holds key value (reading start early) ttlSecs) := by
  induction steps using List.reverseRecOn generalizing late with
  | nil =>
    have hsplit := h.split
    simp at hsplit
  | append_singleton steps step ih =>
    rcases h.of_concat with ⟨rfl, rfl, rfl⟩ | ⟨late, rfl, hlast, hput⟩
    · rw [leaves_concat]
      exact ⟨fun hmet => absurd hmet not_met_nil, fun _ => holds_put⟩
    · obtain ⟨hgone, hheld⟩ := ih hlast
      rw [met_concat_iff]
      by_cases hget : step = .get key
      · subst hget
        rw [leaves_concat]
        dsimp only
        by_cases hmet : Met start key value ttlSecs early late
        · rw [get_of_none (hgone hmet)]
          exact ⟨fun _ => hgone hmet, fun hnot => absurd (Or.inl hmet) hnot⟩
        · rw [get_of_holds (hheld hmet), ← hlast.split]
          split
          · next hover =>
            exact ⟨fun _ => Std.ExtTreeMap.getElem?_erase_self,
              fun hnot => absurd (Or.inr ⟨rfl, hover⟩) hnot⟩
          · next hlive =>
            exact ⟨fun hor => absurd hor (not_or.mpr ⟨hmet, fun hover => hlive hover.2⟩),
              fun _ => hheld hmet⟩
      · unfold Holds
        rw [values_concat_of_ne hput hget]
        refine ⟨fun hor => hgone ?_, fun hnot => hheld fun hmet => hnot (Or.inl hmet)⟩
        exact hor.resolve_right fun hover => hget hover.1

/-! ## What a read comes to -/

/-- What a read of a key comes to after some uses. -/
def answer (start : Instant) (before : List StoreStep) (key : String) : Option Bytes :=
  ((leaves empty start before).get (reading start before) key).1

theorem answer_of_not_put (h : ∀ v ttl, .put key v ttl ∉ steps) :
    answer start steps key = none := by
  rw [answer, get_of_none (values_of_not_put h)]

/-- As long as the clock does not go back, a read comes to the value that was put last if it is not
    at its end, whether or not another read has come across it. -/
theorem answer_of_lastPut (hclock : (readings start steps).Pairwise (· ≤ ·))
    (h : LastPut steps key value ttlSecs early late) : answer start steps key =
      if reading start steps < expiry (reading start early) ttlSecs then some value else none := by
  obtain ⟨hgone, hheld⟩ := values_of_lastPut start h
  by_cases hmet : Met start key value ttlSecs early late
  · -- a value whose end a read has seen is still at its end
    rw [answer, get_of_none (hgone hmet)]
    obtain ⟨between, rest, hlate, hover⟩ := hmet
    have hsplit : steps = (early ++ .put key value ttlSecs :: between) ++ .get key :: rest := by
      rw [h.split, hlate, List.append_assoc, List.cons_append]
    have hle :
        reading start (early ++ .put key value ttlSecs :: between) ≤ reading start steps := by
      rw [hsplit] at hclock ⊢
      exact reading_le hclock
    rw [if_neg fun hlive => Instant.not_le.mpr hlive (Instant.le_trans hover hle)]
  · rw [answer, get_of_holds (hheld hmet)]
    by_cases hover : expiry (reading start early) ttlSecs ≤ reading start steps
    · rw [if_pos hover, if_neg fun hlive => Instant.not_le.mpr hlive hover]
    · rw [if_neg hover, if_pos (Instant.not_le.mp hover)]

/-- Where the answer of a read stands among the answers of all uses. -/
theorem getElem?_answers (start : Instant) (before : List StoreStep) (key : String)
    (after : List StoreStep) :
    (answers empty start (before ++ .get key :: after))[(answers empty start before).length]? =
      some (.ok (answer start before key)) := by
  rw [answers_append, List.getElem?_append_right (Nat.le_refl _), Nat.sub_self]
  rfl

/-- Other reads make no difference to what a read comes to. -/
theorem answer_of_withoutReads_eq {steps' : List StoreStep}
    (hclock : (readings start steps).Pairwise (· ≤ ·))
    (heq : withoutReads steps' = withoutReads steps) (key : String) :
    answer start steps' key = answer start steps key := by
  have hreadings : readings start steps' = readings start steps := by
    rw [← readings_withoutReads, heq, readings_withoutReads]
  have hreading : reading start steps' = reading start steps := by
    unfold reading
    simp only [hreadings]
  rcases exists_lastPut_or steps key with hnone | ⟨value, ttlSecs, early, late, h⟩
  · have hnone' : ∀ v ttl, .put key v ttl ∉ steps' := fun v ttl hmem => by
      have hmem' : .put key v ttl ∈ withoutReads steps' := List.mem_filter.mpr ⟨hmem, rfl⟩
      rw [heq] at hmem'
      exact hnone v ttl (List.mem_filter.mp hmem').1
    rw [answer_of_not_put hnone, answer_of_not_put hnone']
  · obtain ⟨early', late', h', hearly⟩ := h.of_withoutReads_eq heq
    rw [answer_of_lastPut hclock h, answer_of_lastPut (hreadings ▸ hclock) h', hreading, hearly]

/-- The keys of what is in the store: something was put there, and no read has come across the end
    of what was put last. -/
theorem mem_values_iff (start : Instant) (steps : List StoreStep) (key : String) :
    key ∈ (leaves empty start steps).values ↔ ∃ value ttlSecs early late,
      LastPut steps key value ttlSecs early late ∧ ¬ Met start key value ttlSecs early late := by
  rw [← Std.ExtTreeMap.isSome_getElem?_iff_mem]
  constructor
  · intro hmem
    rcases exists_lastPut_or steps key with hnone | ⟨value, ttlSecs, early, late, h⟩
    · rw [values_of_not_put hnone] at hmem
      cases hmem
    · refine ⟨value, ttlSecs, early, late, h, fun hmet => ?_⟩
      rw [(values_of_lastPut start h).1 hmet] at hmem
      cases hmem
  · rintro ⟨value, ttlSecs, early, late, h, hmet⟩
    rw [show (leaves empty start steps).values[key]? = _ from (values_of_lastPut start h).2 hmet]
    rfl

end Uses

/-- Uses of a new store under a clock that does not go back. A read of a key comes to the value
    that was put last under it, if the time to live of that value is not over, and to nothing
    otherwise; it does so too if there are other reads before or after it, or fewer. The store has
    the size of the set of those keys under which something was put and whose last value no read
    has come across at its end. -/
theorem lazy_expiry_unseen {start : Instant} {steps : List StoreStep}
    (hclock : (readings start steps).Pairwise (· ≤ ·))
    (hreadings : ∀ t ∈ readings start steps, t.Representable) :
    (∀ before key after, steps = before ++ .get key :: after →
      ((∀ v ttl, .put key v ttl ∉ before) → answer start before key = none) ∧
      (∀ value ttlSecs early late, LastPut before key value ttlSecs early late →
        answer start before key =
          if reading start before < expiry (reading start early) ttlSecs then some value
          else none) ∧
      (∀ before' after', withoutReads before' = withoutReads before →
        (answers empty start (before' ++ .get key :: after'))[
            (answers empty start before').length]? = some (.ok (answer start before key)))) ∧
    (∃ keys : Finset String, (leaves empty start steps).size = keys.card ∧
      ∀ key, key ∈ keys ↔ ∃ value ttlSecs early late,
        LastPut steps key value ttlSecs early late ∧ ¬ Met start key value ttlSecs early late) ∧
    (∀ put ∈ readings start steps, ∀ ttlSecs, expiry put ttlSecs =
      if put.second + ttlSecs.toNat ≤ Instant.latestSecond then
        ⟨put.second + ttlSecs.toNat, if ttlSecs = 0 then put.nano else put.nano % 1000000000⟩
      else .latest) := by
  refine ⟨fun before key after hsplit => ?_, ?_, fun put hput => expiry_eq (hreadings put hput)⟩
  · have hbefore : (readings start before).Pairwise (· ≤ ·) := by
      rw [hsplit, readings, List.filterMap_append, ← List.cons_append] at hclock
      exact (List.pairwise_append.mp hclock).1
    refine ⟨answer_of_not_put, fun value ttlSecs early late h => answer_of_lastPut hbefore h,
      fun before' after' heq => ?_⟩
    rw [getElem?_answers, answer_of_withoutReads_eq hbefore heq]
  · refine ⟨(leaves empty start steps).values.keys.toFinset, ?_, fun key => ?_⟩
    · rw [List.toFinset_card_of_nodup Std.ExtTreeMap.nodup_keys, Std.ExtTreeMap.length_keys]
      rfl
    · rw [List.mem_toFinset, Std.ExtTreeMap.mem_keys, mem_values_iff]

/-- A value is read a nanosecond before its end, written over at its end without a read between,
    and read again long after; another one is at its end as soon as it is put. -/
def overwriting : List StoreStep :=
  [.put "a" [1] 5, .put "z" [9] 0, .clock ⟨5, 4⟩, .get "a", .clock ⟨5, 5⟩,
    .put "a" [2] 18446744073709551615, .get "z", .clock ⟨9000000000, 0⟩, .get "a"]

/-- The reads of that run, and its last one without the others before it. -/
theorem lazy_expiry_unseen_overwriting :
    (readings ⟨0, 5⟩ overwriting).Pairwise (· ≤ ·) ∧
      (∀ t ∈ readings ⟨0, 5⟩ overwriting, t.Representable) ∧
      answer ⟨0, 5⟩ (overwriting.take 3) "a" = some [1] ∧
      answer ⟨0, 5⟩ (overwriting.take 6) "z" = none ∧
      (answers empty ⟨0, 5⟩ (withoutReads overwriting ++ [.get "a"]))[0]? =
        some (.ok (some [2])) := by
  have hclock : (readings ⟨0, 5⟩ overwriting).Pairwise (· ≤ ·) := by decide
  have hreadings : ∀ t ∈ readings ⟨0, 5⟩ overwriting, t.Representable := by decide
  obtain ⟨hreads, -, -⟩ := lazy_expiry_unseen hclock hreadings
  have hfirst := (hreads (overwriting.take 3) "a" (overwriting.drop 4) rfl).2.1 [1] 5 []
    [.put "z" [9] 0, .clock ⟨5, 4⟩] ⟨rfl, by simp⟩
  have hblank := (hreads (overwriting.take 6) "z" (overwriting.drop 7) rfl).2.1 [9] 0
    [.put "a" [1] 5] ((overwriting.take 6).drop 2) ⟨rfl, by simp [overwriting]⟩
  obtain ⟨-, hlast, hother⟩ := hreads (overwriting.take 8) "a" [] rfl
  have hlate := hlast [2] 18446744073709551615 (overwriting.take 5)
    ((overwriting.take 8).drop 6) ⟨rfl, by simp [overwriting]⟩
  have halone := hother (withoutReads overwriting) [] rfl
  rw [hlate] at halone
  exact ⟨hclock, hreadings, hfirst, hblank, halone⟩

end MemoryStore

end MarketCache
