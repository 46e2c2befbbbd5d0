import MarketCache.Text.Utf8

/-!
# Text through its bytes

What the UTF-8 reader makes of the bytes of a text is the text. The first byte of a character
tells how many more there are and in which range the next one lies, the two bounds other than
those of all bytes that continue a character being what keeps every character to its shortest
form and the surrogates out. So bytes in which the reader finds no damage are those of a text.

Main definition: `Sound`.

Results:
* `scan_char`: the reader goes over the bytes of a character and keeps the character.
* `Sound.exists_char`: bytes without damage start with those of a character.
* `decode?_eq_some_iff`: bytes are read as a text iff they are its bytes.
* `ofUtf8?_utf8`: the string of the bytes of a string.
* `ascii_or_high`: a character is a byte of its own, or all its bytes are high.
-/

namespace MarketCache

namespace Text.Utf8

/-! ## First bytes -/

theorem start_one : ∀ n < 0x80, start (UInt8.ofNat n) = (.idle, [some (Char.ofNat n)]) := by
  decide

theorem start_two : ∀ n < 32, 2 ≤ n →
    start (UInt8.ofNat (n + 192)) = (.inside 0 n 0x80 0xBF, []) := by
  decide

theorem start_three : ∀ n < 16, start (UInt8.ofNat (n + 224)) =
    (.inside 1 n (if n = 0 then 0xA0 else 0x80) (if n = 0xD then 0x9F else 0xBF), []) := by
  decide

theorem start_four : ∀ n < 5, start (UInt8.ofNat (n + 240)) =
    (.inside 2 n (if n = 0 then 0x90 else 0x80) (if n = 4 then 0x8F else 0xBF), []) := by
  decide

/-- A byte that continues a character, or would start one that has a shorter form. -/
theorem start_low : ∀ n < 66, start (UInt8.ofNat (n + 128)) = (.idle, [none]) := by
  decide

/-- A byte that would start a character beyond the last. -/
theorem start_high : ∀ n < 11, start (UInt8.ofNat (n + 245)) = (.idle, [none]) := by
  decide

/-! ## The reader -/

section Scan

variable (acc : List (Option Char)) (bs : Bytes) {n bits : Nat} {low high : UInt8}

theorem scan_of_start {b : UInt8} {s : State} {out : List (Option Char)}
    (h : start b = (s, out)) : scan acc .idle (b :: bs) = scan (out.reverse ++ acc) s bs := by
  simp only [scan, step, h]

theorem toNat_next (hn : n < 64) : (UInt8.ofNat (n + 128)).toNat = n + 128 := by
  rw [UInt8.toNat_ofNat']
  omega

/-- A byte in the range that is asked for. -/
theorem mem_range_ofNat (hn : n < 64) (hlow : low.toNat ≤ n + 128) (hhigh : n + 128 ≤ high.toNat) :
    low ≤ UInt8.ofNat (n + 128) ∧ UInt8.ofNat (n + 128) ≤ high := by
  rw [UInt8.le_iff_toNat_le, UInt8.le_iff_toNat_le, toNat_next hn]
  exact ⟨hlow, hhigh⟩

/-- The last byte of a character. -/
theorem scan_last (hn : n < 64) (hlow : low.toNat ≤ n + 128) (hhigh : n + 128 ≤ high.toNat) :
    scan acc (.inside 0 bits low high) (UInt8.ofNat (n + 128) :: bs) =
      scan (some (Char.ofNat (bits * 64 + n)) :: acc) .idle bs := by
  simp only [scan, step, if_pos (mem_range_ofNat hn hlow hhigh), toNat_next hn, Nat.add_sub_cancel]
  rfl

/-- A byte of a character that is neither the first nor the last. -/
theorem scan_more (need : Nat) (hn : n < 64) (hlow : low.toNat ≤ n + 128)
    (hhigh : n + 128 ≤ high.toNat) :
    scan acc (.inside (need + 1) bits low high) (UInt8.ofNat (n + 128) :: bs) =
      scan acc (.inside need (bits * 64 + n) 0x80 0xBF) bs := by
  simp only [scan, step, if_pos (mem_range_ofNat hn hlow hhigh), toNat_next hn, Nat.add_sub_cancel]
  rfl

/-- The reader goes over the bytes of a character and keeps the character. -/
theorem scan_char (c : Char) : scan acc .idle (String.utf8EncodeChar c ++ bs) =
    scan (some c :: acc) .idle bs := by
  have hchar : Char.ofNat c.val.toNat = c := Char.ofNat_toNat c
  have hvalid : c.val.toNat < 0xD800 ∨ 0xDFFF < c.val.toNat ∧ c.val.toNat < 0x110000 := c.valid
  unfold String.utf8EncodeChar
  generalize c.val.toNat = n at hchar hvalid
  dsimp only
  split
  · rw [List.singleton_append, scan_of_start acc bs (start_one n (by omega)), hchar]
    rfl
  split
  · simp only [List.cons_append, List.nil_append]
    rw [scan_of_start acc _ (start_two (n / 64 % 32) (by omega) (by omega)),
      scan_last _ bs (by omega) (by simp) (by simp; omega),
      show n / 64 % 32 * 64 + n % 64 = n by omega, hchar]
    rfl
  split
  · simp only [List.cons_append, List.nil_append]
    rw [scan_of_start acc _ (start_three (n / 4096 % 16) (by omega)),
      scan_more _ _ 0 (by omega) (by split <;> simp; omega) (by split <;> simp <;> omega),
      scan_last _ bs (by omega) (by simp) (by simp; omega),
      show (n / 4096 % 16 * 64 + n / 64 % 64) * 64 + n % 64 = n by omega, hchar]
    rfl
  · simp only [List.cons_append, List.nil_append]
    rw [show n / 262144 % 8 + 240 = n / 262144 + 240 by omega,
      scan_of_start acc _ (start_four (n / 262144) (by omega)),
      scan_more _ _ 1 (by omega) (by split <;> simp; omega) (by split <;> simp <;> omega),
      scan_more _ _ 0 (by omega) (by simp) (by simp; omega),
      scan_last _ bs (by omega) (by simp) (by simp; omega),
      show ((n / 262144 * 64 + n / 4096 % 64) * 64 + n / 64 % 64) * 64 + n % 64 = n by omega, hchar]
    rfl

end Scan

theorem scan_encode (cs : List Char) (acc : List (Option Char)) :
    scan acc .idle (encode cs) = acc.reverse ++ cs.map some := by
  induction cs generalizing acc with
  | nil => exact (List.append_nil _).symm
  | cons c cs ih => rw [encode_cons, scan_char, ih, List.reverse_cons, List.append_assoc]; rfl

/-- The text of the bytes of a text. -/
theorem decode?_encode (cs : List Char) : decode? (encode cs) = some cs := by
  have hpieces : pieces (encode cs) = cs.map some := scan_encode cs []
  simp [decode?, hpieces, List.all_map, List.filterMap_map]

/-! ## Which bytes are sound -/

theorem scan_eq_append (acc : List (Option Char)) (s : State) (bs : Bytes) :
    scan acc s bs = acc.reverse ++ scan [] s bs := by
  induction bs generalizing acc s with
  | nil =>
    cases s with
    | idle => exact (List.append_nil _).symm
    | inside => exact List.reverse_cons
  | cons b bs ih =>
    simp only [scan]
    rw [ih, ih (_ ++ [])]
    simp

section Sound

variable {s : State} {b : UInt8} {bs : Bytes} {need bits k n m l : Nat} {low high : UInt8}

/-- Whether nothing is damaged in what the reader has before it. -/
def Sound (s : State) (bs : Bytes) : Prop := none ∉ scan [] s bs

theorem sound_cons_iff : Sound s (b :: bs) ↔ none ∉ (step s b).2 ∧ Sound (step s b).1 bs := by
  unfold Sound
  have hscan : scan [] s (b :: bs) = scan ((step s b).2.reverse ++ []) (step s b).1 bs := by
    cases s <;> rfl
  rw [hscan, scan_eq_append, List.mem_append, not_or]
  simp

theorem not_sound_inside_nil : ¬ Sound (.inside need bits low high) [] := by
  simp [Sound, scan]

/-- Inside a character there is a byte in the range that is asked for. -/
theorem Sound.exists_next (h : Sound (.inside need bits low high) bs) (hlow : 0x80 ≤ low.toNat)
    (hhigh : high.toNat ≤ 0xBF) : ∃ n rest, bs = UInt8.ofNat (n + 128) :: rest ∧ n < 64 ∧
      low.toNat ≤ n + 128 ∧ n + 128 ≤ high.toNat ∧
      Sound (match need with
        | 0 => .idle
        | more + 1 => .inside more (bits * 64 + n) 0x80 0xBF) rest := by
  cases bs with
  | nil => exact absurd h not_sound_inside_nil
  | cons b rest =>
    obtain ⟨hout, hrest⟩ := sound_cons_iff.mp h
    by_cases hrange : low ≤ b ∧ b ≤ high
    · have hlow' : low.toNat ≤ b.toNat := UInt8.le_iff_toNat_le.mp hrange.1
      have hhigh' : b.toNat ≤ high.toNat := UInt8.le_iff_toNat_le.mp hrange.2
      refine ⟨b.toNat - 128, rest, ?_, by omega, by omega, by omega, ?_⟩
      · rw [Nat.sub_add_cancel (by omega), UInt8.ofNat_toNat]
      · simp only [step, if_pos hrange] at hrest
        cases need <;> exact hrest
    · -- a byte outside the range is a damage
      simp [step, if_neg hrange] at hout

theorem toNat_ofNat (h : n.isValidChar) : (Char.ofNat n).val.toNat = n := by
  rw [Char.ofNat, dif_pos h]
  rfl

theorem encodeChar_one (hn : n < 0x80) :
    String.utf8EncodeChar (Char.ofNat n) = [UInt8.ofNat n] := by
  unfold String.utf8EncodeChar
  rw [toNat_ofNat (Or.inl (by omega))]
  exact if_pos (by omega)

/-- The character of two bytes; a smaller `k` is one of a single byte. -/
theorem encodeChar_two (hk : 2 ≤ k) (hk' : k < 32) (hn : n < 64) :
    String.utf8EncodeChar (Char.ofNat (k * 64 + n)) =
      [UInt8.ofNat (k + 192), UInt8.ofNat (n + 128)] := by
  unfold String.utf8EncodeChar
  rw [toNat_ofNat (Or.inl (by omega))]
  dsimp only
  rw [if_neg (by omega), if_pos (by omega), show (k * 64 + n) / 64 % 32 = k by omega,
    show (k * 64 + n) % 64 = n by omega]

/-- The character of three bytes, which is no surrogate. -/
theorem encodeChar_three (hk : k < 16) (hn : n < 64) (hm : m < 64) (hshort : k = 0 → 32 ≤ n)
    (hsurrogate : k = 13 → n < 32) :
    String.utf8EncodeChar (Char.ofNat ((k * 64 + n) * 64 + m)) =
      [UInt8.ofNat (k + 224), UInt8.ofNat (n + 128), UInt8.ofNat (m + 128)] := by
  have hvalid : ((k * 64 + n) * 64 + m).isValidChar := by
    unfold Nat.isValidChar
    omega
  unfold String.utf8EncodeChar
  rw [toNat_ofNat hvalid]
  dsimp only
  rw [if_neg (by omega), if_neg (by omega), if_pos (by omega),
    show ((k * 64 + n) * 64 + m) / 4096 % 16 = k by omega,
    show ((k * 64 + n) * 64 + m) / 64 % 64 = n by omega,
    show ((k * 64 + n) * 64 + m) % 64 = m by omega]

/-- The character of four bytes, of which there are `0x100000`. -/
theorem encodeChar_four (hk : k < 5) (hn : n < 64) (hm : m < 64) (hl : l < 64)
    (hshort : k = 0 → 16 ≤ n) (hlast : k = 4 → n < 16) :
    String.utf8EncodeChar (Char.ofNat (((k * 64 + n) * 64 + m) * 64 + l)) =
      [UInt8.ofNat (k + 240), UInt8.ofNat (n + 128), UInt8.ofNat (m + 128),
        UInt8.ofNat (l + 128)] := by
  have hvalid : (((k * 64 + n) * 64 + m) * 64 + l).isValidChar := Or.inr (by omega)
  unfold String.utf8EncodeChar
  rw [toNat_ofNat hvalid]
  dsimp only
  rw [if_neg (by omega), if_neg (by omega), if_neg (by omega),
    show (((k * 64 + n) * 64 + m) * 64 + l) / 262144 % 8 = k by omega,
    show (((k * 64 + n) * 64 + m) * 64 + l) / 4096 % 64 = n by omega,
    show (((k * 64 + n) * 64 + m) * 64 + l) / 64 % 64 = m by omega,
    show (((k * 64 + n) * 64 + m) * 64 + l) % 64 = l by omega]

/-- A sound text starts with the bytes of a character. -/
theorem Sound.exists_char (h : Sound .idle (b :: bs)) :
    ∃ c rest, b :: bs = String.utf8EncodeChar c ++ rest ∧ Sound .idle rest := by
  obtain ⟨hout, hrest⟩ := sound_cons_iff.mp h
  rw [step] at hout hrest
  obtain ⟨lead, hlead, rfl⟩ : ∃ lead < 256, b = UInt8.ofNat lead :=
    ⟨b.toNat, b.toNat_lt, UInt8.ofNat_toNat.symm⟩
  -- what the first byte may be, in increasing order
  by_cases hone : lead < 128
  · rw [start_one lead hone] at hrest
    exact ⟨Char.ofNat lead, bs, by rw [encodeChar_one hone, List.singleton_append], hrest⟩
  by_cases hlow : lead < 194
  · obtain ⟨i, rfl⟩ := Nat.exists_eq_add_of_le' (Nat.not_lt.mp hone)
    rw [start_low i (by omega)] at hout
    exact absurd List.mem_cons_self hout
  by_cases htwo : lead < 224
  · obtain ⟨k, rfl⟩ := Nat.exists_eq_add_of_le' (show 192 ≤ lead by omega)
    rw [start_two k (by omega) (by omega)] at hrest
    obtain ⟨n, rest, rfl, hn, -, -, hrest⟩ := hrest.exists_next (by decide) (by decide)
    have hchar := @encodeChar_two k n (by omega) (by omega) hn
    exact ⟨_, rest, by rw [hchar]; rfl, hrest⟩
  by_cases hthree : lead < 240
  · obtain ⟨k, rfl⟩ := Nat.exists_eq_add_of_le' (Nat.not_lt.mp htwo)
    rw [start_three k (by omega)] at hrest
    obtain ⟨n, rest, rfl, hn, hfrom, hto, hrest⟩ :=
      hrest.exists_next (by split <;> decide) (by split <;> decide)
    obtain ⟨m, rest, rfl, hm, -, -, hrest⟩ := hrest.exists_next (by decide) (by decide)
    have hshort (hk : k = 0) : 160 ≤ n + 128 := by rwa [if_pos hk] at hfrom
    have hsurrogate (hk : k = 13) : n + 128 ≤ 159 := by rwa [if_pos hk] at hto
    have hchar := @encodeChar_three k n m (by omega) hn hm (by omega) (by omega)
    exact ⟨_, rest, by rw [hchar]; rfl, hrest⟩
  by_cases hfour : lead < 245
  · obtain ⟨k, rfl⟩ := Nat.exists_eq_add_of_le' (Nat.not_lt.mp hthree)
    rw [start_four k (by omega)] at hrest
    obtain ⟨n, rest, rfl, hn, hfrom, hto, hrest⟩ :=
      hrest.exists_next (by split <;> decide) (by split <;> decide)
    obtain ⟨m, rest, rfl, hm, -, -, hrest⟩ := hrest.exists_next (by decide) (by decide)
    obtain ⟨l, rest, rfl, hl, -, -, hrest⟩ := hrest.exists_next (by decide) (by decide)
    have hshort (hk : k = 0) : 144 ≤ n + 128 := by rwa [if_pos hk] at hfrom
    have hlast (hk : k = 4) : n + 128 ≤ 143 := by rwa [if_pos hk] at hto
    have hchar := @encodeChar_four k n m l (by omega) hn hm hl (by omega) (by omega)
    exact ⟨_, rest, by rw [hchar]; rfl, hrest⟩
  · obtain ⟨i, rfl⟩ := Nat.exists_eq_add_of_le' (Nat.not_lt.mp hfour)
    rw [start_high i (by omega)] at hout
    exact absurd List.mem_cons_self hout

/-- Sound bytes are those of a text. -/
theorem Sound.exists_encode {bs : Bytes} (h : Sound .idle bs) : ∃ cs, bs = encode cs := by
  induction hlen : bs.length using Nat.strongRecOn generalizing bs with
  | ind len ih =>
    cases bs with
    | nil => exact ⟨[], rfl⟩
    | cons b bs =>
      obtain ⟨c, rest, heq, hrest⟩ := h.exists_char
      have hshorter : rest.length < len := by
        rw [← hlen, heq, List.length_append, String.length_utf8EncodeChar]
        have hpos := c.utf8Size_pos
        omega
      obtain ⟨cs, rfl⟩ := ih rest.length hshorter hrest rfl
      exact ⟨c :: cs, heq⟩

/-- Bytes are read as a text iff they are its bytes. -/
theorem decode?_eq_some_iff {cs : List Char} : decode? bs = some cs ↔ bs = encode cs := by
  constructor
  · intro h
    have hsound : Sound .idle bs := by
      unfold decode? at h
      dsimp only at h
      split at h
      · next hall => exact fun hnone => nomatch List.all_eq_true.mp hall none hnone
      · cases h
    obtain ⟨cs', rfl⟩ := hsound.exists_encode
    rw [decode?_encode] at h
    rw [Option.some.inj h]
  · rintro rfl
    exact decode?_encode cs

end Sound

/-! ## Which bytes a character has -/

/-- A character below U+0080 is a byte of its own; all bytes of the others are at least 128. -/
theorem ascii_or_high (c : Char) :
    (c.toNat < 0x80 ∧ String.utf8EncodeChar c = [UInt8.ofNat c.toNat]) ∨
      (0x80 ≤ c.toNat ∧ ∀ b ∈ String.utf8EncodeChar c, 0x80 ≤ b.toNat) := by
  have hnum : c.val.toNat = c.toNat := rfl
  unfold String.utf8EncodeChar
  rw [hnum]
  generalize c.toNat = n
  dsimp only
  by_cases hn : n ≤ 127
  · rw [if_pos hn]
    exact Or.inl ⟨by omega, rfl⟩
  · refine Or.inr ⟨by omega, fun b hb => ?_⟩
    rw [if_neg hn] at hb
    split at hb
    · simp only [List.mem_cons, List.not_mem_nil, or_false] at hb
      rcases hb with rfl | rfl <;> simp <;> omega
    split at hb
    · simp only [List.mem_cons, List.not_mem_nil, or_false] at hb
      rcases hb with rfl | rfl | rfl <;> simp <;> omega
    · simp only [List.mem_cons, List.not_mem_nil, or_false] at hb
      rcases hb with rfl | rfl | rfl | rfl <;> simp <;> omega

end Text.Utf8

/-- The string of the bytes of a string. -/
theorem ofUtf8?_utf8 (s : String) : ofUtf8? (utf8 s) = some s := by
  unfold ofUtf8? utf8
  rw [Text.Utf8.decode?_encode, Option.map_some, String.ofList_toList]

theorem utf8_injective {s t : String} (h : utf8 s = utf8 t) : s = t := by
  apply Option.some.inj
  rw [← ofUtf8?_utf8 s, h, ofUtf8?_utf8]

end MarketCache
