import MarketCache.Json.Number
import MarketCache.Proofs.Text.Digits

/-!
# Whole numbers through their text

A whole number that fits 64 bits is read back exactly, as long as what follows it cannot be taken
for a part of it. It has no zero in front, its digits fit the significand one after the other,
and neither a fraction nor a power of ten follows.

Main definition: `Delimited`, what stands behind a value.

Result: `readNumber_append`.
-/

namespace MarketCache.Json

open Text.Utf8

/-- Whether a text that stands behind a value begins with a comma or a closing bracket. -/
def Delimited (rest : Bytes) : Prop :=
  ∀ b ∈ rest.head?, b = comma ∨ b = closeBracket ∨ b = closeBrace

theorem Delimited.isDigitByte_eq {rest : Bytes} (h : Delimited rest) :
    ∀ b ∈ rest.head?, isDigitByte b = false := by
  intro b hb
  rcases h b hb with rfl | rfl | rfl <;> rfl

/-! ## Digits as bytes -/

/-- The byte of a decimal digit. -/
theorem utf8EncodeChar_of_isDigit {c : Char} (h : c.isDigit = true) :
    String.utf8EncodeChar c = [UInt8.ofNat c.toNat] ∧
      (UInt8.ofNat c.toNat).toNat = c.toNat ∧ isDigitByte (UInt8.ofNat c.toNat) = true := by
  have hrange : 48 ≤ c.toNat ∧ c.toNat ≤ 57 := by
    simpa [Char.isDigit, UInt32.le_iff_toNat_le] using h
  have hall : ∀ n ≤ 57, 48 ≤ n → String.utf8EncodeChar (Char.ofNat n) = [UInt8.ofNat n] ∧
      (UInt8.ofNat n).toNat = n ∧ isDigitByte (UInt8.ofNat n) = true := by decide
  obtain ⟨hbytes, hnat, hdigit⟩ := hall c.toNat hrange.2 hrange.1
  rw [Char.ofNat_toNat] at hbytes
  exact ⟨hbytes, hnat, hdigit⟩

/-- A number other than zero has no zero in front. -/
theorem head_decimal {n : Nat} (hn : 0 < n) : ∀ c ∈ (Text.decimal n).head?, c ≠ '0' := by
  induction n using Nat.strongRecOn with
  | ind n ih =>
    unfold Text.decimal
    rw [Nat.toDigits_eq_if (by decide)]
    split
    · next hlt =>
      intro c hc
      have hall : ∀ n < 10, 0 < n → n.digitChar ≠ '0' := by decide
      cases hc
      exact hall n hlt hn
    · next hge =>
      obtain ⟨d, ds, hds⟩ := List.exists_cons_of_ne_nil (Text.decimal_ne_nil (n / 10))
      intro c hc
      refine ih (n / 10) (by omega) (by omega) c ?_
      rw [show Nat.toDigits 10 (n / 10) = d :: ds from hds] at hc
      rw [hds]
      exact hc

/-- All digits of a number that fits go into the significand. -/
theorem absorb_append {ds : List Char} {n : Nat} {rest : Bytes} (h : ∀ c ∈ ds, c.isDigit = true)
    (hfits : Nat.ofDigitChars 10 ds n < UInt64.size)
    (hrest : ∀ b ∈ rest.head?, isDigitByte b = false) :
    absorb n (encode ds ++ rest) = (Nat.ofDigitChars 10 ds n, rest) := by
  induction ds generalizing n with
  | nil =>
    rcases rest with _ | ⟨b, rest⟩
    · rfl
    · have hb := hrest b rfl
      simp only [encode_nil, List.nil_append, absorb, hb, Bool.false_and, Bool.false_eq_true,
        if_false]
      rfl
  | cons c ds ih =>
    obtain ⟨hbytes, hnat, hdigit⟩ := utf8EncodeChar_of_isDigit (h c List.mem_cons_self)
    rw [Nat.ofDigitChars_cons] at hfits ⊢
    have hnext : n * 10 + ((UInt8.ofNat c.toNat).toNat - 0x30) =
        10 * n + (c.toNat - '0'.toNat) := by
      rw [hnat, Nat.mul_comm]
      rfl
    have hlt : n * 10 + ((UInt8.ofNat c.toNat).toNat - 0x30) < UInt64.size := by
      rw [hnext]
      exact Nat.lt_of_le_of_lt (Text.le_ofDigitChars ds _) hfits
    rw [encode_cons, hbytes, List.singleton_append, List.cons_append, absorb]
    simp only [hdigit, hlt, decide_true, Bool.and_self, if_true]
    rw [hnext, ih (fun c hc => h c (List.mem_cons_of_mem _ hc)) hfits]

/-! ## Numbers -/

section Read

variable {n : Nat} {rest : Bytes}

theorem readWhole_decimal (hn : n < UInt64.size) (hrest : Delimited rest) :
    readWhole (encode (Text.decimal n) ++ rest) = .ok (⟨n, 0, true⟩, rest) := by
  rcases Nat.eq_zero_or_pos n with rfl | hpos
  · have hhead : rest.head?.any isDigitByte = false := by
      rcases rest with _ | ⟨b, rest⟩
      · rfl
      · exact hrest.isDigitByte_eq b rfl
    show readWhole (0x30 :: rest) = _
    rw [readWhole, if_pos rfl, hhead]
    rfl
  · have habsorb := absorb_append (n := 0) (fun _ => Text.isDigit_of_mem_decimal)
      ((Text.ofDigitChars_decimal n).symm ▸ hn) hrest.isDigitByte_eq
    rw [Text.ofDigitChars_decimal] at habsorb
    obtain ⟨c, cs, hcs⟩ := List.exists_cons_of_ne_nil (Text.decimal_ne_nil n)
    have hc : c.isDigit = true := Text.isDigit_of_mem_decimal (n := n) (hcs ▸ List.mem_cons_self)
    have hzero : c ≠ '0' := head_decimal hpos c (by rw [hcs]; rfl)
    obtain ⟨hbytes, hnat, hdigit⟩ := utf8EncodeChar_of_isDigit hc
    have hbyte : UInt8.ofNat c.toNat ≠ 0x30 := by
      intro heq
      rw [heq] at hnat
      exact hzero (by rw [← Char.ofNat_toNat c, ← hnat]; rfl)
    have hextra : rest.takeWhile isDigitByte = [] := by
      rcases rest with _ | ⟨b, rest⟩
      · rfl
      · rw [List.takeWhile_cons_of_neg (by simp [hrest.isDigitByte_eq b rfl])]
    rw [hcs, encode_cons, hbytes, List.singleton_append, List.cons_append] at habsorb ⊢
    rw [readWhole, if_neg hbyte, if_pos hdigit, habsorb]
    simp only [hextra]
    rfl

theorem readFraction_delimited (m : Numeral) (hrest : Delimited rest) :
    readFraction m rest = .ok (m, rest) := by
  rcases rest with _ | ⟨b, rest⟩
  · rfl
  · rcases hrest b rfl with rfl | rfl | rfl <;> rfl

theorem readPower_delimited (m : Numeral) (hrest : Delimited rest) :
    readPower m rest = .ok (m, rest) := by
  rcases rest with _ | ⟨b, rest⟩
  · rfl
  · rcases hrest b rfl with rfl | rfl | rfl <;> rfl

theorem readNumeral_decimal (hn : n < UInt64.size) (hrest : Delimited rest) :
    readNumeral (encode (Text.decimal n) ++ rest) = .ok (⟨n, 0, true⟩, rest) := by
  simp only [readNumeral, bind, Except.bind, readWhole_decimal hn hrest,
    readFraction_delimited _ hrest, readPower_delimited _ hrest]

/-- The value of a whole number; zero has no minus sign. -/
theorem value?_whole (z : Integer) :
    (⟨z.val.natAbs, 0, true⟩ : Numeral).value? (decide (z.val < 0)) = some (.int z) := by
  have hz : (if decide (z.val < 0) = true then -(z.val.natAbs : Int) else z.val.natAbs) =
      z.val := by
    by_cases hneg : z.val < 0
    · rw [if_pos (decide_eq_true hneg)]
      omega
    · rw [if_neg (by simpa using hneg)]
      omega
  have hsign : (decide (z.val < 0) && (z.val.natAbs == 0)) = false := by
    by_cases hneg : z.val < 0
    · rw [Bool.and_eq_false_iff]
      exact Or.inr (by simpa using by omega)
    · rw [decide_eq_false hneg, Bool.false_and]
  have hfits : Integer.ofInt? z.val = some z := dif_pos ⟨z.lower, z.upper⟩
  simp only [Numeral.value?, hz, hfits, hsign, Bool.not_false, Bool.and_self, if_true]

/-- A whole number that was written, from after its minus sign. -/
theorem readNumber_append (z : Integer) (hrest : Delimited rest) :
    readNumber (decide (z.val < 0)) (encode (Text.decimal z.val.natAbs) ++ rest) =
      .ok (.int z, rest) := by
  have hn : z.val.natAbs < UInt64.size := by
    have hlower := z.lower
    have hupper := z.upper
    have hsize : UInt64.size = 18446744073709551616 := rfl
    omega
  rw [readNumber, readNumeral_decimal hn hrest]
  simp only [bind, Except.bind, value?_whole]

end Read

end MarketCache.Json
