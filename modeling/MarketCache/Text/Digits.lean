/-!
# Digits

Numbers in decimal and hexadecimal: writing, padding, and the value of one digit.
Reading whole numbers is done by core's `Nat.ofDigitChars`.
-/

namespace MarketCache.Text

/-- `n` in decimal. -/
def decimal (n : Nat) : List Char := Nat.toDigits 10 n

/-- `n` in decimal, with zeros in front up to `width` digits. -/
def padded (width n : Nat) : List Char :=
  List.replicate (width - (decimal n).length) '0' ++ decimal n

/-- `z` in decimal, a minus sign in front of a negative number. -/
def signedDecimal (z : Int) : List Char :=
  if z < 0 then '-' :: decimal z.natAbs else decimal z.natAbs

/-- The lower case hexadecimal digit of `n < 16`. -/
def hexDigit (n : Nat) : Char := Nat.digitChar n

/-- The upper case hexadecimal digit of `n < 16`. -/
def upperHexDigit (n : Nat) : Char := (Nat.digitChar n).toUpper

/-- The value of a byte as a hexadecimal digit of either case. -/
def hexValue? (b : UInt8) : Option Nat :=
  if 0x30 ≤ b ∧ b ≤ 0x39 then some (b.toNat - 0x30)
  else if 0x41 ≤ b ∧ b ≤ 0x46 then some (b.toNat - 0x41 + 10)
  else if 0x61 ≤ b ∧ b ≤ 0x66 then some (b.toNat - 0x61 + 10)
  else none

/-- The texts between the separators `sep` of a text; one more than there are separators. -/
def fields (sep : Char) : List Char → List (List Char)
  | [] => [[]]
  | c :: cs =>
    if c = sep then [] :: fields sep cs
    else
      match fields sep cs with
      | [] => [[c]]
      | f :: fs => (c :: f) :: fs

/-- Texts joined with `sep` between them. -/
def join (sep : Char) : List (List Char) → List Char
  | [] => []
  | [a] => a
  | a :: b :: rest => a ++ sep :: join sep (b :: rest)

theorem fields_ne_nil (sep : Char) (cs : List Char) : fields sep cs ≠ [] := by
  cases cs with
  | nil => simp [fields]
  | cons c cs =>
    unfold fields
    split
    · simp
    · split <;> simp

end MarketCache.Text
