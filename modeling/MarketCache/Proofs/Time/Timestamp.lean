import MarketCache.Proofs.Text.Digits
import MarketCache.Proofs.Time.Calendar
import MarketCache.Time.Timestamp.Reader

/-!
# Instants through their timestamps

A timestamp is read back as the instant that it was written for, a leap second at the end of a
minute included. Any other leap second has no text of its own and is written like the second that
follows it, as which it is then read. Each part of a timestamp ends where its reader stops: numbers
have their full width, and what follows a number whose width is open is no digit.

Main definitions:
* `Instant.LeapEndsMinute`: a leap second that has a text of its own.
* `Instant.written`: the instant that a timestamp tells.

Results:
* `date?_text`, `clock?_clockText`: the two parts, with any text behind them that can be there.
* `timestamp_written`, `written_eq_self_iff`: which instants are told by their timestamps.
* `ofTimestamp?_timestamp`: the instant of the timestamp of an instant.
-/

namespace MarketCache

/-! ## What a timestamp tells -/

namespace Instant

/-- Whether a leap second, if one is under way, is at the end of a minute. -/
def LeapEndsMinute (t : Instant) : Prop := t.isLeap = true → t.second % 60 = 59

instance (t : Instant) : Decidable t.LeapEndsMinute := inferInstanceAs (Decidable (_ → _))

/-- The instant that the timestamp of an instant tells: a leap second in the midst of a minute is
    told like the next second. -/
def written (t : Instant) : Instant :=
  if t.LeapEndsMinute then t else ⟨t.second + 1, t.nano - 1000000000⟩

variable {t : Instant}

theorem written_of_leapEndsMinute (h : t.LeapEndsMinute) : t.written = t := if_pos h

/-- The timestamp of an instant tells that instant iff no leap second is under way in the midst of
    a minute. -/
theorem written_eq_self_iff : t.written = t ↔ t.LeapEndsMinute := by
  refine ⟨fun h => ?_, written_of_leapEndsMinute⟩
  unfold written at h
  split at h
  · assumption
  · have hsecond := congrArg second h
    dsimp only at hsecond
    omega

/-- What a leap second in the midst of a minute is. -/
theorem leap_of_not_leapEndsMinute (h : ¬ t.LeapEndsMinute) :
    t.isLeap = true ∧ t.second % 60 ≠ 59 := Classical.not_imp.mp h

theorem representable_written (h : t.Representable) : t.written.Representable := by
  by_cases hends : t.LeapEndsMinute
  · rwa [written_of_leapEndsMinute hends]
  · obtain ⟨hleap, hsecond⟩ := leap_of_not_leapEndsMinute hends
    have hnano : t.nano ≥ 1000000000 := of_decide_eq_true hleap
    obtain ⟨hfirst, hlast, hlt⟩ := h
    rw [written, if_neg hends]
    unfold Representable
    unfold earliestSecond latestSecond at *
    dsimp only
    omega

theorem leapEndsMinute_written (h : t.Representable) : t.written.LeapEndsMinute := by
  by_cases hends : t.LeapEndsMinute
  · rwa [written_of_leapEndsMinute hends]
  · have hnano := h.2.2
    rw [written, if_neg hends]
    intro hleap
    have hlong : t.nano - 1000000000 ≥ 1000000000 := of_decide_eq_true hleap
    omega

/-- An instant has the timestamp of the one that its timestamp tells. -/
theorem timestamp_written (h : t.Representable) : t.written.timestamp = t.timestamp := by
  by_cases hends : t.LeapEndsMinute
  · rw [written_of_leapEndsMinute hends]
  · obtain ⟨hleap, hsecond⟩ := leap_of_not_leapEndsMinute hends
    have hnano : t.nano ≥ 1000000000 := of_decide_eq_true hleap
    have hplain : isLeap ⟨t.second + 1, t.nano - 1000000000⟩ = false :=
      decide_eq_false (by have := h.2.2; dsimp only; omega)
    have hday : (t.second + 1) / 86400 = t.second / 86400 := by omega
    have hclock : ((t.second + 1) % 86400).toNat = (t.second % 86400).toNat + 1 := by omega
    have hminute : (t.second % 86400).toNat % 60 ≠ 59 := by omega
    rw [written, if_neg hends]
    unfold timestamp textIn date clockText timeOfDay
    simp only [hplain, hleap, hday, hclock, Bool.false_eq_true, if_true, if_false]
    generalize (t.second % 86400).toNat = s at hminute
    rw [show (s + 1) / 3600 = s / 3600 by omega, show (s + 1) / 60 = s / 60 by omega,
      show (s + 1) % 60 + 0 = s % 60 + 1 by omega, Nat.zero_mul, Nat.sub_zero, Nat.one_mul]

end Instant

namespace Timestamp

open Text

/-! ## Numbers -/

section Numbers

variable {width n : Nat} {ds rest : List Char}

theorem takeWhile_isDigit_append (hdigits : ∀ c ∈ ds, c.isDigit = true)
    (hrest : ∀ c ∈ rest.head?, c.isDigit = false) :
    (ds ++ rest).takeWhile Char.isDigit = ds := by
  rw [List.takeWhile_append_of_pos hdigits]
  rcases rest with _ | ⟨c, rest⟩
  · rw [List.takeWhile_nil, List.append_nil]
  · rw [List.takeWhile_cons_of_neg (by simp [hrest c rfl]), List.append_nil]

/-- A number ends at its width or before something that is no digit. -/
theorem digits?_append (hne : ds ≠ []) (hdigits : ∀ c ∈ ds, c.isDigit = true)
    (hwidth : ds.length ≤ width)
    (hrest : ds.length = width ∨ ∀ c ∈ rest.head?, c.isDigit = false) :
    digits? width (ds ++ rest) = some (Nat.ofDigitChars 10 ds 0, rest) := by
  have htaken : ((ds ++ rest).take width).takeWhile Char.isDigit = ds := by
    rw [List.take_append, List.take_of_length_le hwidth]
    refine takeWhile_isDigit_append hdigits fun c hc => ?_
    rcases hrest with hlen | hrest
    · rw [hlen, Nat.sub_self] at hc
      cases hc
    · refine hrest c ?_
      rcases rest with _ | ⟨d, rest⟩
      · simp at hc
      · rcases hk : width - ds.length with _ | k
        · simp [hk] at hc
        · simpa [hk] using hc
  simp only [digits?, htaken, if_neg hne, List.drop_left]

theorem exists_digit_padded (width n : Nat) :
    ∃ c cs, padded width n = c :: cs ∧ c.isDigit = true := by
  obtain ⟨c, cs, h⟩ := List.exists_cons_of_ne_nil (padded_ne_nil width n)
  exact ⟨c, cs, h, isDigit_of_mem_padded (h ▸ List.mem_cons_self)⟩

theorem trimStart_padded (width n : Nat) (rest : List Char) :
    trimStart (padded width n ++ rest) = padded width n ++ rest := by
  obtain ⟨c, cs, h, hc⟩ := exists_digit_padded width n
  rw [h, List.cons_append, trimStart, List.dropWhile_cons_of_neg (by simp [isBlank_of_isDigit hc])]

theorem digits?_padded (hwidth : 0 < width) (h : n < 10 ^ width) (rest : List Char) :
    digits? width (padded width n ++ rest) = some (n, rest) := by
  have hlen := length_padded hwidth h
  rw [digits?_append (padded_ne_nil width n) (fun _ => isDigit_of_mem_padded) (Nat.le_of_eq hlen)
    (Or.inl hlen), ofDigitChars_padded]

theorem field?_padded (h : n < 100) (rest : List Char) :
    field? (padded 2 n ++ rest) = some (n, rest) := by
  rw [field?, trimStart_padded, digits?_padded (by decide) h]

theorem separator?_cons {c : Char} (hc : isBlank c = false) (rest : List Char) :
    separator? c (c :: rest) = some rest := by
  rw [separator?, trimStart, List.dropWhile_cons_of_neg (by simp [hc])]
  exact if_pos rfl

end Numbers

/-! ## Dates -/

theorem year?_yearText (year : Int) (rest : List Char) :
    year? (Date.yearText year ++ '-' :: rest) = some (year, '-' :: rest) := by
  have hsigned : digits? (padded 4 year.natAbs ++ '-' :: rest).length
      (padded 4 year.natAbs ++ '-' :: rest) = some (year.natAbs, '-' :: rest) := by
    rw [digits?_append (padded_ne_nil 4 _) (fun _ => isDigit_of_mem_padded)
      (by rw [List.length_append]; exact Nat.le_add_right _ _)
      (Or.inr fun c hc => by cases hc; rfl), ofDigitChars_padded]
  unfold Date.yearText
  by_cases hfour : 0 ≤ year ∧ year ≤ 9999
  · obtain ⟨c, cs, hcs, hc⟩ := exists_digit_padded 4 year.natAbs
    have hread : digits? 4 (padded 4 year.natAbs ++ '-' :: rest) =
        some (year.natAbs, '-' :: rest) := digits?_padded (by decide) (by omega) _
    rw [if_pos hfour, year?, trimStart_padded]
    rw [hcs, List.cons_append] at hread ⊢
    split
    · next heq =>
      rw [(List.cons.inj heq).1] at hc
      cases hc
    · next heq =>
      rw [(List.cons.inj heq).1] at hc
      cases hc
    · rw [hread]
      simp only [Option.bind_eq_bind, Option.bind_some, Option.some.injEq, Prod.mk.injEq, and_true]
      omega
  · rw [if_neg hfour]
    by_cases hneg : year < 0
    · rw [if_pos hneg, List.cons_append, year?, trimStart,
        List.dropWhile_cons_of_neg (by decide)]
      simp only [hsigned, Option.bind_eq_bind, Option.bind_some, Option.some.injEq, Prod.mk.injEq,
        and_true]
      omega
    · rw [if_neg hneg, List.cons_append, year?, trimStart,
        List.dropWhile_cons_of_neg (by decide)]
      simp only [hsigned, Option.bind_eq_bind, Option.bind_some, Option.some.injEq, Prod.mk.injEq,
        and_true]
      omega

theorem date?_text {d : Date} (h : d.IsValid) (rest : List Char) :
    date? (d.text ++ rest) = some (d, rest) := by
  obtain ⟨hmonth, hday⟩ := h.lt_hundred
  have hdash : isBlank '-' = false := by decide
  unfold date? Date.text
  simp only [List.append_assoc, List.cons_append, Option.bind_eq_bind, year?_yearText,
    Option.bind_some, separator?_cons hdash, field?_padded hmonth, field?_padded hday]

/-! ## Times of day -/

theorem fraction?_fractionText {nano : Nat} (h : nano < 1000000000) (rest : List Char) :
    fraction? (Instant.fractionText nano ++ 'Z' :: rest) = some (nano, 'Z' :: rest) := by
  -- a fraction of any width that is not cut off
  have hread : ∀ width n, 0 < width → width ≤ 9 → n < 10 ^ width →
      fraction? ('.' :: (padded width n ++ 'Z' :: rest)) =
        some (n * Nat.pow 10 (9 - width), 'Z' :: rest) := by
    intro width n hpos hle hn
    have hlen := length_padded hpos hn
    have hdigits : digits? 9 (padded width n ++ 'Z' :: rest) = some (n, 'Z' :: rest) := by
      rw [digits?_append (padded_ne_nil width n) (fun _ => isDigit_of_mem_padded)
        (by omega) (Or.inr fun c hc => by cases hc; rfl), ofDigitChars_padded]
    rw [fraction?, hdigits]
    simp only [Option.bind_eq_bind, Option.bind_some, List.length_append, hlen, Nat.add_sub_cancel]
    rfl
  unfold Instant.fractionText
  split
  · next hzero => rw [hzero]; rfl
  split
  · next hmilli =>
    rw [List.cons_append, hread 3 (nano / 1000000) (by decide) (by decide) (by omega)]
    simp only [Option.some.injEq, Prod.mk.injEq, and_true, Nat.reducePow, Nat.reduceSub,
      Nat.pow_eq]
    omega
  split
  · next hmicro =>
    rw [List.cons_append, hread 6 (nano / 1000) (by decide) (by decide) (by omega)]
    simp only [Option.some.injEq, Prod.mk.injEq, and_true, Nat.reducePow, Nat.reduceSub,
      Nat.pow_eq]
    omega
  · rw [List.cons_append, hread 9 nano (by decide) (by decide) (by omega)]
    simp only [Nat.reduceSub, Nat.pow_eq, Nat.pow_zero, Nat.mul_one]

/-- A time of day from its numbers; second 60 stands for a leap second. -/
theorem clock?_padded {hour minute second nano : Nat} (hhour : hour < 24) (hminute : minute < 60)
    (hsecond : second ≤ 60) (hnano : nano < 1000000000) (rest : List Char) :
    clock? (padded 2 hour ++ ':' :: (padded 2 minute ++ ':' :: (padded 2 second ++
        (Instant.fractionText nano ++ 'Z' :: rest)))) =
      if second = 60 then
        some (hour * 3600 + minute * 60 + 59, nano + 1000000000, 'Z' :: rest)
      else some (hour * 3600 + minute * 60 + second, nano, 'Z' :: rest) := by
  have hcolon : isBlank ':' = false := by decide
  unfold clock?
  simp only [Option.bind_eq_bind, Option.bind_some, separator?_cons hcolon,
    field?_padded (show hour < 100 by omega), field?_padded (show minute < 100 by omega),
    field?_padded (show second < 100 by omega), fraction?_fractionText hnano]
  rw [if_pos ⟨hhour, hminute, hsecond⟩]

/-- The second of the day and the nanoseconds in it. -/
theorem clock?_clockText {t : Instant} (h : t.Representable) (hends : t.LeapEndsMinute)
    (rest : List Char) :
    clock? (t.clockText ++ 'Z' :: rest) = some (t.timeOfDay.toNat, t.nano, 'Z' :: rest) := by
  have hday : t.timeOfDay.toNat < 86400 ∧ (t.timeOfDay.toNat : Int) = t.second % 86400 := by
    unfold Instant.timeOfDay
    omega
  have hnano := h.2.2
  unfold Instant.clockText
  generalize t.timeOfDay.toNat = s at hday ⊢
  simp only [List.append_assoc, List.cons_append]
  by_cases hleap : t.isLeap = true
  · have hlong : t.nano ≥ 1000000000 := of_decide_eq_true hleap
    have hminute := hends hleap
    have hlast : s % 60 = 59 := by omega
    rw [if_pos hleap, hlast, clock?_padded (by omega) (by omega) (by decide) (by omega), if_pos rfl]
    congr 2
    · omega
    · congr 1
      omega
  · have hshort : ¬ t.nano ≥ 1000000000 := fun hlong => hleap (decide_eq_true hlong)
    rw [if_neg hleap, clock?_padded (by omega) (by omega) (by omega) (by omega),
      if_neg (by omega)]
    congr 2
    omega

end Timestamp

namespace Instant

/-- An instant with a timestamp of its own is read back. -/
theorem ofTimestamp?_of_leapEndsMinute {t : Instant} (h : t.Representable)
    (hends : t.LeapEndsMinute) : ofTimestamp? t.timestamp = some t := by
  have hvalid : t.date.IsValid := Date.isValid_ofDayNumber (t.second / 86400)
  have hzone : Timestamp.zone? ['Z'] = some (0, []) := by decide
  have hrange : t.date.InRange := by
    refine ⟨hvalid, ?_, ?_⟩
    · refine Date.le_year_ofDayNumber ?_
      have hfirst : daysBeforeYear (-262143) - Date.epochDay = earliestSecond / 86400 := by
        decide
      rw [hfirst]
      exact Int.ediv_le_ediv (by decide) h.1
    · refine Int.lt_add_one_iff.mp (Date.year_ofDayNumber_lt ?_)
      have hlast : daysBeforeYear (262142 + 1) - Date.epochDay = latestSecond / 86400 + 1 := by
        decide
      rw [hlast]
      exact Int.lt_add_one_of_le (Int.ediv_le_ediv (by decide) h.2.1)
  have hsecond : t.date.dayNumber * 86400 + (t.timeOfDay.toNat : Int) - 0 = t.second := by
    rw [date, Date.dayNumber_ofDayNumber, timeOfDay]
    omega
  unfold ofTimestamp? timestamp ofTimestampChars? textIn
  rw [String.toList_ofList, List.append_assoc, Timestamp.date?_text hvalid]
  simp only [Option.bind_eq_bind, Option.bind_some, List.cons_append,
    Timestamp.clock?_clockText h hends, hzone, hsecond]
  rw [if_pos ⟨rfl, hrange⟩, if_pos ⟨h.1, h.2.1⟩]

/-- The instant of the timestamp of an instant is the one that it tells. -/
theorem ofTimestamp?_timestamp {t : Instant} (h : t.Representable) :
    ofTimestamp? t.timestamp = some t.written := by
  rw [← timestamp_written h]
  exact ofTimestamp?_of_leapEndsMinute (representable_written h) (leapEndsMinute_written h)

end Instant

end MarketCache
