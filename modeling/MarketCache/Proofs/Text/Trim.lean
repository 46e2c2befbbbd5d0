import Mathlib.Data.List.Basic
import MarketCache.Text.Blank

/-!
# Trimmed texts

A text is white space, its trimmed text, and white space again, and it is so in one way only: what
stands between two stretches of white space, and neither starts nor ends with any, is what the
whole trims to.

Main definition: `IsTrimmed`.

Results:
* `exists_trim`: a text around its trimmed text.
* `trim_append`: a trimmed text comes back from between white space.
* `trim_eq_iff`: what a text trims to.
-/

namespace MarketCache.Text

/-- Whether a text neither starts nor ends with white space. -/
structure IsTrimmed (cs : List Char) : Prop where
  head : ∀ c ∈ cs.head?, isBlank c = false
  last : ∀ c ∈ cs.getLast?, isBlank c = false

variable {cs front back core : List Char}

/-- A text without any white space is trimmed. -/
theorem IsTrimmed.of_forall (h : ∀ c ∈ cs, isBlank c = false) : IsTrimmed cs where
  head c hc := h c (List.mem_of_mem_head? hc)
  last c hc := h c (List.mem_of_getLast? hc)

/-- A text around what is left of it. -/
theorem exists_trim (cs : List Char) : ∃ front back,
    cs = front ++ trim cs ++ back ∧ front.all isBlank = true ∧ back.all isBlank = true := by
  refine ⟨cs.takeWhile isBlank, ((trimStart cs).reverse.takeWhile isBlank).reverse, ?_, ?_, ?_⟩
  · have hback : trim cs ++ ((trimStart cs).reverse.takeWhile isBlank).reverse = trimStart cs := by
      rw [trim, trimEnd, ← List.reverse_append, List.takeWhile_append_dropWhile,
        List.reverse_reverse]
    rw [List.append_assoc, hback, trimStart, List.takeWhile_append_dropWhile]
  · exact List.all_takeWhile
  · rw [List.all_reverse]
    exact List.all_takeWhile

/-- A text that does not start with white space stays whole at its start. -/
theorem trimStart_of_head (h : ∀ c ∈ cs.head?, isBlank c = false) : trimStart cs = cs := by
  cases cs with
  | nil => rfl
  | cons c cs =>
    have hc : ¬ isBlank c = true := Bool.eq_false_iff.mp (h c rfl)
    rw [trimStart, List.dropWhile_cons_of_neg hc]

/-- A text that does not end with white space stays whole at its end. -/
theorem trimEnd_of_last (h : ∀ c ∈ cs.getLast?, isBlank c = false) : trimEnd cs = cs := by
  have hreverse : trimStart cs.reverse = cs.reverse :=
    trimStart_of_head (by rwa [List.head?_reverse])
  rw [trimEnd, show cs.reverse.dropWhile isBlank = cs.reverse from hreverse, List.reverse_reverse]

/-- What is left of a text is trimmed. -/
theorem isTrimmed_trim (cs : List Char) : IsTrimmed (trim cs) where
  head c hc := by
    -- what is left starts where the text starts that is only trimmed there
    have hprefix : trim cs <+: trimStart cs := by
      rw [trim, trimEnd, ← List.reverse_suffix, List.reverse_reverse]
      exact List.dropWhile_suffix isBlank
    have hstart : c ∈ (cs.dropWhile isBlank).head? := by
      obtain ⟨rest, hrest⟩ := hprefix
      rw [show cs.dropWhile isBlank = trim cs ++ rest from hrest.symm, List.head?_append]
      exact Option.mem_def.mpr (by rw [Option.mem_def.mp hc, Option.some_or])
    have hnot := List.head?_dropWhile_not isBlank cs
    rw [Option.mem_def.mp hstart] at hnot
    exact hnot
  last c hc := by
    rw [trim, trimEnd, List.getLast?_reverse] at hc
    have hnot := List.head?_dropWhile_not isBlank (trimStart cs).reverse
    rw [Option.mem_def.mp hc] at hnot
    exact hnot

/-- A trimmed text comes back from between white space. -/
theorem trim_append (hfront : front.all isBlank = true) (hback : back.all isBlank = true)
    (h : IsTrimmed core) : trim (front ++ core ++ back) = core := by
  by_cases hnil : core = []
  · subst hnil
    rw [List.append_nil, trim_eq_nil_iff, List.all_append, hfront, hback, Bool.and_true]
  · have hstart : trimStart (front ++ core ++ back) = core ++ back := by
      rw [List.append_assoc, trimStart, List.dropWhile_append_of_pos (List.all_eq_true.mp hfront)]
      refine trimStart_of_head fun c hc => h.head c ?_
      rwa [List.head?_append_of_ne_nil core hnil] at hc
    have hblank : ∀ c ∈ back.reverse, isBlank c = true := by
      rwa [← List.all_eq_true, List.all_reverse]
    rw [trim, hstart, trimEnd, List.reverse_append, List.dropWhile_append_of_pos hblank]
    exact trimEnd_of_last h.last

/-- What a text trims to: that which stands in it between white space, and is trimmed. -/
theorem trim_eq_iff : trim cs = core ↔ IsTrimmed core ∧ ∃ front back,
    cs = front ++ core ++ back ∧ front.all isBlank = true ∧ back.all isBlank = true := by
  constructor
  · rintro rfl
    exact ⟨isTrimmed_trim cs, exists_trim cs⟩
  · rintro ⟨htrimmed, front, back, rfl, hfront, hback⟩
    exact trim_append hfront hback htrimmed

end MarketCache.Text
