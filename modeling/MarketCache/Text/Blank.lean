/-!
# White space

The characters with the Unicode property `White_Space`, and what is left of a text
without those at its ends. Symbols, configuration values and throttle fields are
trimmed by this set and no other.

Result: `trim_eq_nil_iff`, a text trims to nothing iff all of it is blank.
-/

namespace MarketCache.Text

/-- The 25 characters with the property `White_Space`. -/
def isBlank (c : Char) : Bool :=
  let n := c.toNat
  (9 ≤ n && n ≤ 13) || n == 0x20 || n == 0x85 || n == 0xA0 || n == 0x1680 ||
    (0x2000 ≤ n && n ≤ 0x200A) || n == 0x2028 || n == 0x2029 || n == 0x202F || n == 0x205F ||
    n == 0x3000

/-- A text without the blank characters it starts with. -/
def trimStart (cs : List Char) : List Char := cs.dropWhile isBlank

/-- A text without the blank characters it ends with. -/
def trimEnd (cs : List Char) : List Char := (cs.reverse.dropWhile isBlank).reverse

/-- A text without blank characters at either end. -/
def trim (cs : List Char) : List Char := trimEnd (trimStart cs)

/-- Whether nothing of a text but white space is there. -/
def isBlankText (s : String) : Bool := s.toList.all isBlank

theorem dropWhile_isBlank_eq_nil_iff {cs : List Char} :
    cs.dropWhile isBlank = [] ↔ cs.all isBlank = true := by
  induction cs with
  | nil => simp
  | cons c cs ih => by_cases h : isBlank c = true <;> simp [h, ih]

/-- A text trims to nothing iff all of it is blank. -/
theorem trim_eq_nil_iff {cs : List Char} : trim cs = [] ↔ cs.all isBlank = true := by
  rw [← dropWhile_isBlank_eq_nil_iff]
  unfold trim trimEnd trimStart
  rw [List.reverse_eq_nil_iff, dropWhile_isBlank_eq_nil_iff, List.all_reverse]
  constructor
  · intro h
    cases hd : cs.dropWhile isBlank with
    | nil => rfl
    | cons c rest =>
      have hc : isBlank c = false := by
        have := List.head?_dropWhile_not isBlank cs
        rw [hd] at this
        simpa using this
      rw [hd] at h
      simp [hc] at h
  · intro h
    simp [h]

end MarketCache.Text
