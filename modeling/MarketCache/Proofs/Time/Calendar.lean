import MarketCache.Time.Calendar

/-!
# Days through their dates

The date of a day is a date of the calendar, and the number of its day is that of the day. A year
is the days of its months one after the other, and every day lies in one of them.

Results:
* `dayNumber_ofDayNumber`, `isValid_ofDayNumber`: the date of a day.
* `le_year_ofDayNumber`, `year_ofDayNumber_lt`: the year of a day, from the first day of a year.
-/

namespace MarketCache.Date

/-- The month in which a day of the year lies, and the day of that month. -/
theorem splitMonths_spec {lens : List Nat} {days : Nat} (h : days < lens.foldr (· + ·) 0) :
    (∃ len ∈ lens[(splitMonths lens days).1]?, (splitMonths lens days).2 < len) ∧
      (lens.take (splitMonths lens days).1).foldr (· + ·) 0 + (splitMonths lens days).2 = days := by
  induction lens generalizing days with
  | nil => exact absurd h (Nat.not_lt_zero days)
  | cons len lens ih =>
    rw [List.foldr_cons] at h
    unfold splitMonths
    by_cases hlt : days < len
    · rw [if_pos hlt]
      exact ⟨⟨len, rfl, hlt⟩, Nat.zero_add days⟩
    · rw [if_neg hlt]
      obtain ⟨⟨len', hlen, hrest⟩, hsum⟩ := @ih (days - len) (by omega)
      refine ⟨⟨len', hlen, hrest⟩, ?_⟩
      dsimp only
      rw [List.take_succ_cons, List.foldr_cons]
      omega

theorem sum_monthLengths (leap : Bool) :
    (monthLengths leap).foldr (· + ·) 0 = if leap then 366 else 365 := by
  cases leap <;> rfl

/-- The day of its year on which a day lies. -/
theorem days_of_year (days : Int) : (days - daysBeforeYear (yearOf days)).toNat <
    (monthLengths (isLeapYear (yearOf days))).foldr (· + ·) 0 := by
  have hspec := yearOf_spec days
  rw [daysBeforeYear_succ] at hspec
  rw [sum_monthLengths]
  split at hspec
  · next hleap =>
    rw [if_pos hleap]
    omega
  · next hleap =>
    rw [if_neg hleap]
    omega

/-- The date of a day is a date of the calendar. -/
theorem isValid_ofDayNumber (n : Int) : (ofDayNumber n).IsValid := by
  obtain ⟨⟨len, hlen, hrest⟩, -⟩ := splitMonths_spec (days_of_year (n + epochDay))
  exact ⟨Nat.succ_pos _, Nat.succ_pos _, len, hlen, hrest⟩

/-- The number of the day of the date of a day. -/
theorem dayNumber_ofDayNumber (n : Int) : (ofDayNumber n).dayNumber = n := by
  obtain ⟨-, hsum⟩ := splitMonths_spec (days_of_year (n + epochDay))
  have hspec := yearOf_spec (n + epochDay)
  simp only [dayNumber, dayOfYear, ofDayNumber, Nat.add_sub_cancel, hsum]
  omega

theorem daysBeforeYear_le {year year' : Int} (h : year ≤ year') :
    daysBeforeYear year ≤ daysBeforeYear year' := by
  simp only [daysBeforeYear]
  omega

theorem le_year_ofDayNumber {n year : Int} (h : daysBeforeYear year - epochDay ≤ n) :
    year ≤ (ofDayNumber n).year := by
  have hspec := yearOf_spec (n + epochDay)
  refine Int.not_lt.mp fun hlt => ?_
  have hle : daysBeforeYear (yearOf (n + epochDay) + 1) ≤ daysBeforeYear year :=
    daysBeforeYear_le hlt
  omega

theorem year_ofDayNumber_lt {n year : Int} (h : n < daysBeforeYear year - epochDay) :
    (ofDayNumber n).year < year := by
  have hspec := yearOf_spec (n + epochDay)
  refine Int.not_le.mp fun hge => ?_
  have hle : daysBeforeYear year ≤ daysBeforeYear (yearOf (n + epochDay)) := daysBeforeYear_le hge
  omega

/-- Months and days of a date of the calendar have two digits at most. -/
theorem IsValid.lt_hundred {d : Date} (h : d.IsValid) : d.month < 100 ∧ d.day < 100 := by
  obtain ⟨-, -, len, hlen, hday⟩ := h
  have hmonth : d.month - 1 < 12 := by
    rcases Nat.lt_or_ge (d.month - 1) 12 with hlt | hge
    · exact hlt
    · rw [List.getElem?_eq_none (by simpa [monthLengths] using hge)] at hlen
      cases hlen
  have hlen' : len < 100 := by
    have hall : ∀ leap, ∀ len ∈ monthLengths leap, len < 100 := by decide
    exact hall _ len (List.mem_of_getElem? hlen)
  omega

end MarketCache.Date
