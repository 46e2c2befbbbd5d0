import MarketCache.Json.Token
import MarketCache.Text.Digits

/-!
# JSON strings

Writing and reading strings. Only the quote, the backslash and the control characters below
U+0020 are escaped when a string is written. A string that is kept has to be UTF-8 and may
hold no surrogate without its partner; a string that is skipped is only searched for its
end.

Main definitions:
* `quoted`: a string as JSON text.
* `readText`: a string that is kept, from after its opening quote.
* `skipText`: what follows a string, from after its opening quote.
-/

namespace MarketCache.Json

/-- The letter after the backslash in the short escape of a control character. -/
def escapeLetter? (c : Char) : Option Char :=
  [('\x08', 'b'), ('\t', 't'), ('\n', 'n'), ('\x0c', 'f'), ('\r', 'r')].lookup c

/-- A character inside a string. -/
def escapeChar (c : Char) : List Char :=
  if c = '"' ∨ c = '\\' then ['\\', c]
  else if c.toNat < 0x20 then
    match escapeLetter? c with
    | some l => ['\\', l]
    | none => ['\\', 'u', '0', '0', Text.hexDigit (c.toNat / 16), Text.hexDigit (c.toNat % 16)]
  else [c]

/-- A string as JSON text. -/
def quoted (s : String) : List Char := '"' :: (s.toList.flatMap escapeChar ++ ['"'])

/-- The byte that a short escape stands for. -/
def unescape? (b : UInt8) : Option UInt8 :=
  [(0x22, 0x22), (0x5C, 0x5C), (0x2F, 0x2F), (0x62, 0x08), (0x66, 0x0C), (0x6E, 0x0A),
    (0x72, 0x0D), (0x74, 0x09)].lookup b

/-- The number of four hexadecimal digits. -/
def hex4? (a b c d : UInt8) : Option Nat := do
  let a ← Text.hexValue? a
  let b ← Text.hexValue? b
  let c ← Text.hexValue? c
  let d ← Text.hexValue? d
  some (((a * 16 + b) * 16 + c) * 16 + d)

/-- The role of a 16-bit unit. -/
inductive Unit16 where
  /-- A character of its own. -/
  | single
  /-- The first half of a surrogate pair. -/
  | leading
  /-- The second half of a surrogate pair. -/
  | trailing
deriving DecidableEq, Repr

/-- The role of the unit `n`. -/
def Unit16.of (n : Nat) : Unit16 :=
  if 0xD800 ≤ n ∧ n < 0xDC00 then .leading
  else if 0xDC00 ≤ n ∧ n < 0xE000 then .trailing
  else .single

/-- The character of a surrogate pair. -/
def pairChar (leading trailing : Nat) : Char :=
  Char.ofNat (0x10000 + (leading - 0xD800) * 0x400 + (trailing - 0xDC00))

/-- The bytes of a string up to its closing quote, after those that `acc` holds in reverse.
    With `lead`, the first half of a surrogate pair has just been read. -/
def scanText (lead : Option Nat) (acc : Bytes) : Bytes → Read Bytes
  | [] => .error .truncated
  | b :: rest =>
    if b = backslash then
      match rest with
      | [] => .error .truncated
      | e :: rest =>
        if e = 0x75 then
          match rest with
          | h₁ :: h₂ :: h₃ :: h₄ :: rest =>
            match hex4? h₁ h₂ h₃ h₄ with
            | none => .error .malformed
            | some n =>
              match lead, Unit16.of n with
              | none, .single =>
                scanText none ((String.utf8EncodeChar (Char.ofNat n)).reverse ++ acc) rest
              | none, .leading => scanText (some n) acc rest
              | some m, .trailing =>
                scanText none ((String.utf8EncodeChar (pairChar m n)).reverse ++ acc) rest
              | _, _ => .error .malformed
          | _ => .error .truncated
        else
          match lead, unescape? e with
          | none, some x => scanText none (x :: acc) rest
          | _, _ => .error .malformed
    else if lead.isSome then .error .malformed
    else if b = quote then .ok (acc.reverse, rest)
    else if b < 0x20 then .error .malformed
    else scanText none (b :: acc) rest

/-- A string that is kept, from after its opening quote. -/
def readText (bs : Bytes) : Except ReadError (String × Bytes) := do
  let (raw, rest) ← scanText none [] bs
  match ofUtf8? raw with
  | some s => .ok (s, rest)
  | none => .error .malformed

/-- What follows a string that is not kept, from after its opening quote. -/
def skipText : Bytes → Except ReadError Bytes
  | [] => .error .truncated
  | b :: rest =>
    if b = backslash then
      match rest with
      | [] => .error .truncated
      | e :: rest =>
        if e = 0x75 then
          match rest with
          | h₁ :: h₂ :: h₃ :: h₄ :: rest =>
            if (hex4? h₁ h₂ h₃ h₄).isSome then skipText rest else .error .malformed
          | _ => .error .truncated
        else if (unescape? e).isSome then skipText rest
        else .error .malformed
    else if b = quote then .ok rest
    else if b < 0x20 then .error .malformed
    else skipText rest

end MarketCache.Json
