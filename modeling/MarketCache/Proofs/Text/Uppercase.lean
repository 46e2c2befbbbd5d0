import Mathlib.Data.List.Basic
import MarketCache.Proofs.Text.Trim
import MarketCache.Text.Uppercase

/-!
# What upper case can lead to

Upper case brings in the characters of the table and no others, so a character that stands
nowhere among them is in the upper case of a text only if it is in the text. None of those that it
does bring in is white space or has an upper case of its own, so that a text in upper case stays
as it is, and a trimmed one is still trimmed.

Main definitions:
* `isCaseImage`: the code points that the table may lead to.
* `casePoints`, `caseImages`: the code points that the table changes, and those that it leads to.

Results:
* `upperChar_cases`: where the upper case of a character comes from.
* `mem_of_mem_upper`: what upper case brings in.
* `upperChar_of_mem_upperChar`, `upper_upper`: upper case is upper case already.
* `IsTrimmed.upper`: the upper case of a trimmed text.
-/

namespace MarketCache.Text

/-- Whether the table may lead to a code point. Code points that are no characters count as
    zero. -/
def isCaseImage (n : Nat) : Bool :=
  n == 0 || caseRuns.any (fun r => r.first + r.shift ≤ n && n ≤ r.last + r.shift) ||
    caseExpansions.any (·.2.contains n)

theorem toNat_ofNat_cases (n : Nat) : (Char.ofNat n).toNat = n ∨ (Char.ofNat n).toNat = 0 := by
  by_cases hvalid : n.isValidChar
  · exact Or.inl (by rw [Char.ofNat, dif_pos hvalid]; rfl)
  · exact Or.inr (by rw [Char.ofNat, dif_neg hvalid]; rfl)

theorem isCaseImage_of_run {r : CaseRun} {c : Char} (hr : r ∈ caseRuns)
    (hc : r.has c.toNat = true) :
    isCaseImage (Char.ofNat (c.toNat + r.shift).toNat).toNat = true := by
  unfold isCaseImage
  simp only [Bool.or_eq_true, beq_iff_eq, List.any_eq_true]
  rcases toNat_ofNat_cases (c.toNat + r.shift).toNat with hvalid | hzero
  · by_cases hpos : (c.toNat + r.shift).toNat = 0
    · exact Or.inl (Or.inl (hvalid.trans hpos))
    · refine Or.inl (Or.inr ⟨r, hr, ?_⟩)
      simp only [CaseRun.has, Bool.and_eq_true, decide_eq_true_eq] at hc
      rw [hvalid, Bool.and_eq_true, decide_eq_true_eq, decide_eq_true_eq]
      omega
  · exact Or.inl (Or.inl hzero)

theorem isCaseImage_of_expansion {n code : Nat} {codes : List Nat}
    (h : (n, codes) ∈ caseExpansions) (hcode : code ∈ codes) :
    isCaseImage (Char.ofNat code).toNat = true := by
  unfold isCaseImage
  simp only [Bool.or_eq_true, beq_iff_eq, List.any_eq_true, List.contains_iff_mem]
  rcases toNat_ofNat_cases code with hvalid | hzero
  · rw [hvalid]
    exact Or.inr ⟨(n, codes), h, hcode⟩
  · exact Or.inl (Or.inl hzero)

/-- The upper case of a character is that character, or there is a run or an expansion for it. -/
theorem upperChar_cases (c : Char) :
    upperChar c = [c] ∨
      (∃ r ∈ caseRuns, r.has c.toNat = true ∧
        upperChar c = [Char.ofNat (c.toNat + r.shift).toNat]) ∨
      ∃ codes, (c.toNat, codes) ∈ caseExpansions ∧ upperChar c = codes.map Char.ofNat := by
  unfold upperChar
  split
  · next r hfind =>
    have hhas := List.find?_some (p := fun r : CaseRun => r.has c.toNat) hfind
    exact Or.inr (Or.inl ⟨r, List.mem_of_find?_eq_some hfind, hhas, rfl⟩)
  · split
    · next codes hlookup =>
      obtain ⟨before, after, htable, -⟩ := List.lookup_eq_some_iff.mp hlookup
      have hmem : (c.toNat, codes) ∈ caseExpansions := by
        rw [htable]
        exact List.mem_append_right before List.mem_cons_self
      exact Or.inr (Or.inr ⟨codes, hmem, rfl⟩)
    · exact Or.inl rfl

/-- A character of the upper case of a character is that one, or one of the table. -/
theorem eq_of_mem_upperChar {c d : Char} (himage : isCaseImage d.toNat = false)
    (h : d ∈ upperChar c) : d = c := by
  rcases upperChar_cases c with hself | ⟨r, hr, hhas, hrun⟩ | ⟨codes, hcodes, hexpansion⟩
  · rw [hself] at h
    exact List.mem_singleton.mp h
  · rw [hrun] at h
    rw [List.mem_singleton.mp h, isCaseImage_of_run hr hhas] at himage
    cases himage
  · rw [hexpansion] at h
    obtain ⟨code, hcode, rfl⟩ := List.mem_map.mp h
    rw [isCaseImage_of_expansion hcodes hcode] at himage
    cases himage

/-- A character that the table does not lead to is in the upper case of a text only if it is in
    the text. -/
theorem mem_of_mem_upper {cs : List Char} {d : Char} (himage : isCaseImage d.toNat = false)
    (h : d ∈ upper cs) : d ∈ cs := by
  obtain ⟨c, hc, hd⟩ := List.mem_flatMap.mp h
  rw [eq_of_mem_upperChar himage hd]
  exact hc

/-- Nothing has a comma in its upper case but the comma. -/
theorem isCaseImage_comma : isCaseImage ','.toNat = false := by decide +kernel

/-! ## Upper case of upper case -/

/-- The code points of a run. -/
def CaseRun.points (r : CaseRun) : List Nat :=
  (List.range ((r.last - r.first) / r.stride + 1)).map (r.first + r.stride * ·)

/-- The code points that the table changes. -/
def casePoints : List Nat := caseRuns.flatMap CaseRun.points ++ caseExpansions.map (·.1)

/-- The code points that the table leads to, and zero, for which those count that are no
    characters. -/
def caseImages : List Nat :=
  0 :: (caseRuns.flatMap fun r => r.points.map fun (n : Nat) => (n + r.shift).toNat) ++
    caseExpansions.flatMap (·.2)

/-- The code points of white space. -/
def blankPoints : List Nat :=
  [9, 10, 11, 12, 13, 0x20, 0x85, 0xA0, 0x1680, 0x2000, 0x2001, 0x2002, 0x2003, 0x2004, 0x2005,
    0x2006, 0x2007, 0x2008, 0x2009, 0x200A, 0x2028, 0x2029, 0x202F, 0x205F, 0x3000]

/-- The number whose bits are given. -/
def ofBits (ns : List Nat) : Nat := ns.foldr (fun n bits => bits ||| 1 <<< n) 0

theorem testBit_ofBits {ns : List Nat} {n : Nat} (h : n ∈ ns) : (ofBits ns).testBit n = true := by
  induction ns with
  | nil => cases h
  | cons m ns ih =>
    rw [ofBits, List.foldr_cons, Nat.testBit_or]
    rcases List.mem_cons.mp h with rfl | hn
    · simp
    · rw [show List.foldr _ 0 ns = ofBits ns from rfl, ih hn, Bool.true_or]

/-- Two lists of numbers have none in common if they have no bit in common. -/
theorem not_mem_of_ofBits {ns ms : List Nat} (h : ofBits ns &&& ofBits ms = 0) {n : Nat}
    (hn : n ∈ ns) : n ∉ ms := by
  intro hm
  have hbit : (ofBits ns &&& ofBits ms).testBit n = true := by
    rw [Nat.testBit_and, testBit_ofBits hn, testBit_ofBits hm, Bool.true_and]
  rw [h, Nat.zero_testBit] at hbit
  cases hbit

/-- The table leads to nothing that it changes, and not to white space. -/
theorem ofBits_caseImages :
    ofBits caseImages &&& ofBits (casePoints ++ blankPoints) = 0 := by decide +kernel

theorem mem_points_of_has {r : CaseRun} {n : Nat} (h : r.has n = true) : n ∈ r.points := by
  simp only [CaseRun.has, Bool.and_eq_true, decide_eq_true_eq, beq_iff_eq] at h
  obtain ⟨⟨hfirst, hlast⟩, hstride⟩ := h
  refine List.mem_map.mpr ⟨(n - r.first) / r.stride, List.mem_range.mpr ?_, ?_⟩
  · exact Nat.lt_succ_of_le (Nat.div_le_div_right (Nat.sub_le_sub_right hlast _))
  · have hdiv := Nat.div_add_mod (n - r.first) r.stride
    rw [hstride, Nat.add_zero] at hdiv
    rw [hdiv]
    omega

/-- A character that the table does not change is its own upper case. -/
theorem upperChar_of_not_mem {c : Char} (h : c.toNat ∉ casePoints) : upperChar c = [c] := by
  have hruns : caseRuns.find? (·.has c.toNat) = none := by
    rw [List.find?_eq_none]
    intro r hr hhas
    exact h (List.mem_append_left _ (List.mem_flatMap.mpr ⟨r, hr, mem_points_of_has hhas⟩))
  have hexpansions : caseExpansions.lookup c.toNat = none := by
    rw [List.lookup_eq_none_iff]
    intro e he
    rw [bne_iff_ne]
    intro heq
    exact h (List.mem_append_right _ (List.mem_map.mpr ⟨e, he, heq.symm⟩))
  unfold upperChar
  rw [hruns, hexpansions]

theorem mem_caseImages_ofNat {n : Nat} (h : n ∈ caseImages) :
    (Char.ofNat n).toNat ∈ caseImages := by
  rcases toNat_ofNat_cases n with hvalid | hzero
  · rwa [hvalid]
  · rw [hzero]
    exact List.mem_cons_self

/-- The upper case of a character is that character, or consists of what the table leads to. -/
theorem upperChar_eq_or_images (c : Char) :
    upperChar c = [c] ∨ ∀ d ∈ upperChar c, d.toNat ∈ caseImages := by
  rcases upperChar_cases c with hself | ⟨r, hr, hhas, hrun⟩ | ⟨codes, hcodes, hexpansion⟩
  · exact Or.inl hself
  · refine Or.inr fun d hd => ?_
    rw [hrun] at hd
    rw [List.mem_singleton.mp hd]
    refine mem_caseImages_ofNat (List.mem_cons_of_mem _ (List.mem_append_left _ ?_))
    exact List.mem_flatMap.mpr ⟨r, hr, List.mem_map.mpr ⟨c.toNat, mem_points_of_has hhas, rfl⟩⟩
  · refine Or.inr fun d hd => ?_
    rw [hexpansion] at hd
    obtain ⟨code, hcode, rfl⟩ := List.mem_map.mp hd
    refine mem_caseImages_ofNat (List.mem_cons_of_mem _ (List.mem_append_right _ ?_))
    exact List.mem_flatMap.mpr ⟨(c.toNat, codes), hcodes, hcode⟩

/-- The characters of an upper case are their own upper case. -/
theorem upperChar_of_mem_upperChar {c d : Char} (h : d ∈ upperChar c) : upperChar d = [d] := by
  rcases upperChar_eq_or_images c with hself | himages
  · rw [hself] at h
    rw [List.mem_singleton.mp h, hself]
  · refine upperChar_of_not_mem fun hpoint => ?_
    exact not_mem_of_ofBits ofBits_caseImages (himages d h) (List.mem_append_left _ hpoint)

theorem upper_cons (c : Char) (cs : List Char) : upper (c :: cs) = upperChar c ++ upper cs :=
  List.flatMap_cons

theorem upper_singleton (c : Char) : upper [c] = upperChar c := List.append_nil _

/-- Upper case is upper case already. -/
theorem upper_upper (cs : List Char) : upper (upper cs) = upper cs := by
  have hfixed : ∀ d ∈ upper cs, upperChar d = [d] := fun d hd => by
    obtain ⟨c, -, hdc⟩ := List.mem_flatMap.mp hd
    exact upperChar_of_mem_upperChar hdc
  rw [upper, List.flatMap_congr hfixed]
  simp

/-! ## White space -/

theorem mem_blankPoints {c : Char} (h : isBlank c = true) : c.toNat ∈ blankPoints := by
  simp only [isBlank, Bool.or_eq_true, Bool.and_eq_true, decide_eq_true_eq, beq_iff_eq] at h
  simp only [blankPoints, List.mem_cons]
  omega

/-- Upper case brings in no white space. -/
theorem isBlank_of_mem_upperChar {c d : Char} (h : d ∈ upperChar c) (hc : isBlank c = false) :
    isBlank d = false := by
  rcases upperChar_eq_or_images c with hself | himages
  · rw [hself] at h
    rw [List.mem_singleton.mp h, hc]
  · rw [Bool.eq_false_iff]
    intro hblank
    exact not_mem_of_ofBits ofBits_caseImages (himages d h)
      (List.mem_append_right _ (mem_blankPoints hblank))

theorem caseExpansions_ne_nil : caseExpansions.all (fun e => !e.2.isEmpty) = true := by
  decide +kernel

/-- Every character has an upper case. -/
theorem upperChar_ne_nil (c : Char) : upperChar c ≠ [] := by
  rcases upperChar_cases c with hself | ⟨r, -, -, hrun⟩ | ⟨codes, hcodes, hexpansion⟩
  · rw [hself]
    exact List.cons_ne_nil _ _
  · rw [hrun]
    exact List.cons_ne_nil _ _
  · have hsome := List.all_eq_true.mp caseExpansions_ne_nil _ hcodes
    rw [hexpansion, ne_eq, List.map_eq_nil_iff]
    rintro rfl
    cases hsome

/-- The upper case of a trimmed text is trimmed. -/
theorem IsTrimmed.upper {cs : List Char} (h : IsTrimmed cs) : IsTrimmed (upper cs) where
  head d hd := by
    cases cs with
    | nil => cases hd
    | cons c cs =>
      rw [upper_cons, List.head?_append_of_ne_nil _ (upperChar_ne_nil c)] at hd
      exact isBlank_of_mem_upperChar (List.mem_of_mem_head? hd) (h.head c rfl)
  last d hd := by
    rcases List.eq_nil_or_concat cs with rfl | ⟨cs, c, rfl⟩
    · cases hd
    · rw [List.concat_eq_append] at hd h
      rw [upper_append, List.getLast?_append_of_ne_nil _ (upper_singleton c ▸ upperChar_ne_nil c),
        upper_singleton] at hd
      exact isBlank_of_mem_upperChar (List.mem_of_mem_getLast? hd) (h.last c (by simp))

end MarketCache.Text
