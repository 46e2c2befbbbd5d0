import MarketCache.Text.Digits
import MarketCache.Text.Utf8

/-!
# Percent escapes

A byte written as a percent sign and two hexadecimal digits. Writing uses upper case digits;
reading takes digits of either case, and a percent sign without two digits behind it stands
for itself.

Main definitions:
* `Percent.escape`, `Percent.encode`: bytes to escapes.
* `Percent.decode`: escapes to bytes.
-/

namespace MarketCache.Http.Percent

/-- The escape of a byte. -/
def escape (b : UInt8) : List Char :=
  ['%', Text.upperHexDigit (b.toNat / 16), Text.upperHexDigit (b.toNat % 16)]

/-- A text in which the bytes of every character outside `keep` are escaped. -/
def encode (keep : Char → Bool) (cs : List Char) : List Char :=
  cs.flatMap fun c => if keep c then [c] else (String.utf8EncodeChar c).flatMap escape

/-- Bytes with the byte that it stands for in place of every escape. -/
def decode : Bytes → Bytes
  | [] => []
  | [a] => [a]
  | [a, b] => [a, b]
  | a :: b :: c :: rest =>
    if a = 0x25 then
      match Text.hexValue? b, Text.hexValue? c with
      | some high, some low => UInt8.ofNat (high * 16 + low) :: decode rest
      | _, _ => a :: decode (b :: c :: rest)
    else a :: decode (b :: c :: rest)

end MarketCache.Http.Percent
