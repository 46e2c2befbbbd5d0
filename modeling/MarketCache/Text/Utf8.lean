/-!
# UTF-8

Text as bytes, written with core's `String.utf8EncodeChar` and read one byte at a time.
The reader is a machine with two states: between characters, or inside one and told how
many bytes it still needs and in which range the next has to lie. A byte outside that
range ends the unfinished character as damaged and is looked at again from between
characters, so each damaged stretch is as long as it could still have become a character.

Main definitions:
* `encode`, `decode?`: text to bytes, and bytes to text if all of them are sound.
* `decodeLossy`: bytes to text with U+FFFD for each damaged stretch.
-/

namespace MarketCache

/-- A sequence of bytes. -/
abbrev Bytes := List UInt8

namespace Text.Utf8

/-- The bytes of a text. -/
def encode (cs : List Char) : Bytes := cs.flatMap String.utf8EncodeChar

/-- Where the reader stands. -/
inductive State where
  /-- Between characters. -/
  | idle
  /-- Inside a character: `need + 1` bytes are missing, the next of them from `low` to
      `high`; `bits` is the code point so far. -/
  | inside (need : Nat) (bits : Nat) (low high : UInt8)
deriving DecidableEq, Repr

/-- The outcome of a first byte: the next state and, if the byte is a character by itself
    or starts none, what it stands for (`none` for damage). -/
def start (b : UInt8) : State × List (Option Char) :=
  if b < 0x80 then (.idle, [some (Char.ofNat b.toNat)])
  else if b < 0xC2 then (.idle, [none])
  else if b < 0xE0 then (.inside 0 (b.toNat - 0xC0) 0x80 0xBF, [])
  else if b = 0xE0 then (.inside 1 0 0xA0 0xBF, [])
  else if b = 0xED then (.inside 1 0xD 0x80 0x9F, [])
  else if b < 0xF0 then (.inside 1 (b.toNat - 0xE0) 0x80 0xBF, [])
  else if b = 0xF0 then (.inside 2 0 0x90 0xBF, [])
  else if b < 0xF4 then (.inside 2 (b.toNat - 0xF0) 0x80 0xBF, [])
  else if b = 0xF4 then (.inside 2 4 0x80 0x8F, [])
  else (.idle, [none])

/-- One byte: the next state and the characters and damages it completes. -/
def step : State → UInt8 → State × List (Option Char)
  | .idle, b => start b
  | .inside need bits low high, b =>
    if low ≤ b ∧ b ≤ high then
      let bits := bits * 64 + (b.toNat - 0x80)
      match need with
      | 0 => (.idle, [some (Char.ofNat bits)])
      | n + 1 => (.inside n bits 0x80 0xBF, [])
    else
      let (s, out) := start b
      (s, none :: out)

/-- Everything read from `bs`, after what `acc` holds in reverse. -/
def scan (acc : List (Option Char)) : State → Bytes → List (Option Char)
  | .idle, [] => acc.reverse
  | .inside .., [] => (none :: acc).reverse
  | s, b :: bs =>
    let (s, out) := step s b
    scan (out.reverse ++ acc) s bs

/-- The characters of `bs`, with `none` for each damaged stretch. -/
def pieces (bs : Bytes) : List (Option Char) := scan [] .idle bs

/-- The text of `bs`, if no stretch of it is damaged. -/
def decode? (bs : Bytes) : Option (List Char) :=
  let ps := pieces bs
  if ps.all Option.isSome then some (ps.filterMap id) else none

/-- The text of `bs`, with U+FFFD for each damaged stretch. -/
def decodeLossy (bs : Bytes) : List Char := (pieces bs).map (·.getD '\uFFFD')

@[simp] theorem encode_nil : encode [] = [] := rfl

@[simp] theorem encode_cons (c : Char) (cs : List Char) :
    encode (c :: cs) = String.utf8EncodeChar c ++ encode cs := rfl

@[simp] theorem encode_append (a b : List Char) : encode (a ++ b) = encode a ++ encode b := by
  simp [encode]

end Text.Utf8

/-- The UTF-8 bytes of a string. -/
def utf8 (s : String) : Bytes := Text.Utf8.encode s.toList

/-- The string with the given UTF-8 bytes, if there is one. -/
def ofUtf8? (bs : Bytes) : Option String := (Text.Utf8.decode? bs).map String.ofList

end MarketCache
