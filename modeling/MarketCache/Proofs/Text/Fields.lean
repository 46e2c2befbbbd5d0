import Mathlib.Data.List.Basic
import MarketCache.Text.Blank
import MarketCache.Text.Digits

/-!
# Texts between separators

A text is cut into fields at its separators, and texts without separators are the fields of
what they are joined to. So a joined text tells the texts that it was made of, as long as
none of them contains the separator and none is empty: the empty list and the list of one
empty text look the same.

Results:
* `not_mem_of_mem_fields`: a field contains no separator.
* `fields_join`: texts without separators come back from what they are joined to.
* `join_inj`: texts that are not empty are told from what they are joined to.
-/

namespace MarketCache.Text

variable {sep : Char}

/-! ## Fields -/

/-- A text without separators is its only field. -/
theorem fields_of_not_mem {cs : List Char} (h : sep ∉ cs) : fields sep cs = [cs] := by
  induction cs with
  | nil => rfl
  | cons c cs ih =>
    have hc : c ≠ sep := fun hc => h (hc ▸ List.mem_cons_self)
    have hrest : sep ∉ cs := fun hmem => h (List.mem_cons_of_mem c hmem)
    rw [fields, if_neg hc, ih hrest]

/-- The first field ends at the first separator. -/
theorem fields_append {a : List Char} (rest : List Char) (h : sep ∉ a) :
    fields sep (a ++ sep :: rest) = a :: fields sep rest := by
  induction a with
  | nil => rw [List.nil_append, fields, if_pos rfl]
  | cons c a ih =>
    have hc : c ≠ sep := fun hc => h (hc ▸ List.mem_cons_self)
    have hrest : sep ∉ a := fun hmem => h (List.mem_cons_of_mem c hmem)
    rw [List.cons_append, fields, if_neg hc, ih hrest]

/-- A field contains no separator. -/
theorem not_mem_of_mem_fields {cs f : List Char} (h : f ∈ fields sep cs) : sep ∉ f := by
  induction cs generalizing f with
  | nil =>
    rw [List.mem_singleton.mp h]
    exact List.not_mem_nil
  | cons c cs ih =>
    rw [fields] at h
    by_cases hc : c = sep
    · rw [if_pos hc] at h
      rcases List.mem_cons.mp h with rfl | hf
      · exact List.not_mem_nil
      · exact ih hf
    · rw [if_neg hc] at h
      obtain ⟨g, gs, hfields⟩ := List.exists_cons_of_ne_nil (fields_ne_nil sep cs)
      rw [hfields] at h ih
      rcases List.mem_cons.mp h with rfl | hf
      · rw [List.mem_cons, not_or]
        exact ⟨Ne.symm hc, ih List.mem_cons_self⟩
      · exact ih (List.mem_cons_of_mem g hf)

/-! ## Joined texts -/

/-- Texts without separators come back from what they are joined to. -/
theorem fields_join {as : List (List Char)} (hne : as ≠ []) (h : ∀ a ∈ as, sep ∉ a) :
    fields sep (join sep as) = as := by
  induction as with
  | nil => exact absurd rfl hne
  | cons a as ih =>
    have ha : sep ∉ a := h a List.mem_cons_self
    cases as with
    | nil => exact fields_of_not_mem ha
    | cons b as =>
      have hrest : ∀ x ∈ b :: as, sep ∉ x := fun x hx => h x (List.mem_cons_of_mem a hx)
      rw [join, fields_append _ ha, ih (List.cons_ne_nil b as) hrest]

/-- What texts are joined to is empty only if there is none of them, or an empty one. -/
theorem join_ne_nil {as : List (List Char)} (hne : as ≠ []) (hnil : [] ∉ as) :
    join sep as ≠ [] := by
  obtain ⟨a, as, rfl⟩ := List.exists_cons_of_ne_nil hne
  have ha : a ≠ [] := fun heq => hnil (heq ▸ List.mem_cons_self)
  cases as with
  | nil => exact ha
  | cons b as => exact List.append_ne_nil_of_left_ne_nil ha _

/-- Texts that are not empty and contain no separator are told from what they are joined to. -/
theorem join_inj {as bs : List (List Char)} (ha : ∀ a ∈ as, sep ∉ a) (hb : ∀ b ∈ bs, sep ∉ b)
    (hnil : [] ∉ as) (hnil' : [] ∉ bs) (h : join sep as = join sep bs) : as = bs := by
  by_cases hempty : as = []
  · subst hempty
    by_contra hne
    exact join_ne_nil (Ne.symm hne) hnil' h.symm
  · have hempty' : bs ≠ [] := by
      rintro rfl
      exact join_ne_nil hempty hnil h
    rw [← fields_join hempty ha, h, fields_join hempty' hb]

/-! ## Trimmed texts -/

/-- A trimmed text has no character that the text does not have. -/
theorem mem_of_mem_trim {c : Char} {cs : List Char} (h : c ∈ trim cs) : c ∈ cs := by
  have hstart : c ∈ trimStart cs := by
    unfold trim trimEnd at h
    have hreverse := List.mem_reverse.mp h
    exact List.mem_reverse.mp ((List.dropWhile_sublist isBlank).subset hreverse)
  exact (List.dropWhile_sublist isBlank).subset hstart

end MarketCache.Text
