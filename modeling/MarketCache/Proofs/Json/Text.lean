import MarketCache.Json.Text
import MarketCache.Proofs.Text.Utf8

/-!
# JSON strings through their text

A string that was written is read back, whatever its characters. Between its quotes stands a
character either as itself, and then no byte of it is a quote, a backslash or a control
character, or as an escape that stands for its one byte.

Result: `readText_append`.
-/

namespace MarketCache.Json

open Text.Utf8

/-! ## Escapes -/

theorem utf8EncodeChar_ofNat : ∀ n < 0x80,
    String.utf8EncodeChar (Char.ofNat n) = [UInt8.ofNat n] := by
  decide

theorem unescape?_escapeLetter {n : Nat} (hn : n < 0x20) {l : Char}
    (h : escapeLetter? (Char.ofNat n) = some l) :
    String.utf8EncodeChar l = [UInt8.ofNat l.toNat] ∧ UInt8.ofNat l.toNat ≠ 0x75 ∧
      unescape? (UInt8.ofNat l.toNat) = some (UInt8.ofNat n) := by
  have hall : ∀ n < 0x20, (escapeLetter? (Char.ofNat n)).all (fun l =>
      String.utf8EncodeChar l = [UInt8.ofNat l.toNat] ∧ UInt8.ofNat l.toNat ≠ 0x75 ∧
        unescape? (UInt8.ofNat l.toNat) = some (UInt8.ofNat n)) = true := by decide
  have hl := hall n hn
  rw [h] at hl
  exact of_decide_eq_true hl

theorem utf8EncodeChar_hexDigit : ∀ n < 16,
    String.utf8EncodeChar (Text.hexDigit n) = [UInt8.ofNat (Text.hexDigit n).toNat] := by
  decide

theorem hex4?_hexDigit : ∀ n < 0x20, hex4? 0x30 0x30 (UInt8.ofNat (Text.hexDigit (n / 16)).toNat)
    (UInt8.ofNat (Text.hexDigit (n % 16)).toNat) = some n := by
  decide

/-! ## The reader between the quotes -/

section Scan

variable (acc rest : Bytes)

/-- Bytes that stand for themselves. -/
theorem scanText_plain {bs : Bytes}
    (h : ∀ b ∈ bs, b ≠ backslash ∧ b ≠ quote ∧ ¬ b < 0x20) :
    scanText none acc (bs ++ rest) = scanText none (bs.reverse ++ acc) rest := by
  induction bs generalizing acc with
  | nil => rfl
  | cons b bs ih =>
    obtain ⟨hback, hquote, hcontrol⟩ := h b List.mem_cons_self
    rw [List.cons_append, scanText.eq_def]
    simp only [hback, hquote, hcontrol, if_false, Option.isSome_none, Bool.false_eq_true]
    rw [ih (b :: acc) fun b hb => h b (List.mem_cons_of_mem _ hb), List.reverse_cons,
      List.append_assoc]
    rfl

theorem scanText_short {e x : UInt8} (he : e ≠ 0x75) (hx : unescape? e = some x) :
    scanText none acc (backslash :: e :: rest) = scanText none (x :: acc) rest := by
  rw [scanText.eq_def]
  simp only [if_true, if_neg he, hx]

theorem scanText_unit {h₁ h₂ h₃ h₄ : UInt8} {n : Nat} (hn : hex4? h₁ h₂ h₃ h₄ = some n)
    (hsingle : Unit16.of n = .single) :
    scanText none acc (backslash :: 0x75 :: h₁ :: h₂ :: h₃ :: h₄ :: rest) =
      scanText none ((String.utf8EncodeChar (Char.ofNat n)).reverse ++ acc) rest := by
  rw [scanText.eq_def]
  simp only [if_true, hn, hsingle]

/-- A control character, by its short escape or by its number. -/
theorem scanText_control {n : Nat} (hn : n < 0x20) :
    scanText none acc (encode (escapeChar (Char.ofNat n)) ++ rest) =
      scanText none ((String.utf8EncodeChar (Char.ofNat n)).reverse ++ acc) rest := by
  have hnum : (Char.ofNat n).toNat = n := by
    have hall : ∀ n < 0x20, (Char.ofNat n).toNat = n := by decide
    exact hall n hn
  have hspecial : ¬ (Char.ofNat n = '"' ∨ Char.ofNat n = '\\') := by
    have hall : ∀ n < 0x20, ¬ (Char.ofNat n = '"' ∨ Char.ofNat n = '\\') := by decide
    exact hall n hn
  have hback : String.utf8EncodeChar '\\' = [backslash] := by decide
  rw [escapeChar, if_neg hspecial, hnum, if_pos hn]
  rcases hletter : escapeLetter? (Char.ofNat n) with _ | l
  · have hu : String.utf8EncodeChar 'u' = [0x75] := by decide
    have hzero : String.utf8EncodeChar '0' = [0x30] := by decide
    simp only [encode_cons, encode_nil, hback, hu, hzero,
      utf8EncodeChar_hexDigit (n / 16) (by omega), utf8EncodeChar_hexDigit (n % 16) (by omega),
      List.cons_append, List.nil_append]
    refine scanText_unit acc rest (hex4?_hexDigit n hn) ?_
    rw [Unit16.of, if_neg (by omega), if_neg (by omega)]
  · obtain ⟨hl, hne, hx⟩ := unescape?_escapeLetter hn hletter
    simp only [encode_cons, encode_nil, hback, hl, List.cons_append, List.nil_append]
    rw [scanText_short acc rest hne hx, utf8EncodeChar_ofNat n (by omega)]
    rfl

/-- The reader goes over a character as it stands between quotes, and keeps its bytes. -/
theorem scanText_escapeChar (c : Char) :
    scanText none acc (encode (escapeChar c) ++ rest) =
      scanText none ((String.utf8EncodeChar c).reverse ++ acc) rest := by
  by_cases hspecial : c = '"' ∨ c = '\\'
  · rcases hspecial with rfl | rfl
    · exact scanText_short acc rest (e := 0x22) (by decide) (by decide)
    · exact scanText_short acc rest (e := 0x5C) (by decide) (by decide)
  by_cases hcontrol : c.toNat < 0x20
  · rw [← Char.ofNat_toNat c]
    exact scanText_control acc rest hcontrol
  rw [escapeChar, if_neg hspecial, if_neg hcontrol, encode_cons, encode_nil, List.append_nil]
  refine scanText_plain acc rest fun b hb => ?_
  simp only [not_or] at hspecial
  have hbyte : b.toNat ≠ 0x5C ∧ b.toNat ≠ 0x22 ∧ 0x20 ≤ b.toNat := by
    rcases ascii_or_high c with ⟨hc, hbytes⟩ | ⟨-, hhigh⟩
    · rw [hbytes] at hb
      rw [List.mem_singleton.mp hb, UInt8.toNat_ofNat', Nat.mod_eq_of_lt (by omega)]
      refine ⟨fun heq => hspecial.2 ?_, fun heq => hspecial.1 ?_, Nat.not_lt.mp hcontrol⟩
      · rw [← Char.ofNat_toNat c, heq]
      · rw [← Char.ofNat_toNat c, heq]
    · have hb := hhigh b hb
      omega
  refine ⟨fun heq => hbyte.1 (heq ▸ rfl), fun heq => hbyte.2.1 (heq ▸ rfl), fun hlt => ?_⟩
  rw [UInt8.lt_iff_toNat_lt] at hlt
  exact absurd hlt (Nat.not_lt.mpr hbyte.2.2)

theorem scanText_flatMap (cs : List Char) :
    scanText none acc (encode (cs.flatMap escapeChar) ++ rest) =
      scanText none ((encode cs).reverse ++ acc) rest := by
  induction cs generalizing acc with
  | nil => rfl
  | cons c cs ih =>
    rw [List.flatMap_cons, encode_append, List.append_assoc, scanText_escapeChar, ih, encode_cons,
      List.reverse_append, List.append_assoc]

end Scan

/-! ## Strings -/

theorem encode_quoted (s : String) : encode (quoted s) =
    quote :: (encode (s.toList.flatMap escapeChar) ++ [quote]) := by
  have hquote : String.utf8EncodeChar '"' = [quote] := by decide
  rw [quoted, encode_cons, encode_append, encode_cons, encode_nil, hquote]
  rfl

/-- A string that was written, from after its opening quote. -/
theorem readText_append (s : String) (rest : Bytes) :
    readText (encode (s.toList.flatMap escapeChar) ++ quote :: rest) = .ok (s, rest) := by
  have hscan : scanText none [] (encode (s.toList.flatMap escapeChar) ++ quote :: rest) =
      .ok (utf8 s, rest) := by
    rw [scanText_flatMap, scanText.eq_def]
    simp only [show quote ≠ backslash by decide, if_false, if_true, Option.isSome_none,
      Bool.false_eq_true, List.append_nil, List.reverse_reverse]
    rfl
  rw [readText, hscan]
  simp only [bind, Except.bind, ofUtf8?_utf8]

end MarketCache.Json
