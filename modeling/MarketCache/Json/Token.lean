import MarketCache.Text.Utf8

/-!
# Pieces of JSON text

What the readers share: the three ways in which reading fails, the bytes that mean something
in JSON, the white space between values, and the literals. Readers go from left to right and
stop at the first failure.
-/

namespace MarketCache.Json

/-- Why a text could not be read. -/
inductive ReadError where
  /-- The text ends too early. -/
  | truncated
  /-- The text is no JSON. -/
  | malformed
  /-- The text is JSON of another shape than the one asked for. -/
  | mismatched
deriving DecidableEq, Repr, Inhabited

/-- The outcome of a reader: what it read and what follows it. -/
abbrev Read (α : Type) := Except ReadError (α × Bytes)

/-! ## Bytes -/

abbrev quote : UInt8 := 0x22
abbrev plus : UInt8 := 0x2B
abbrev comma : UInt8 := 0x2C
abbrev minus : UInt8 := 0x2D
abbrev point : UInt8 := 0x2E
abbrev colon : UInt8 := 0x3A
abbrev openBracket : UInt8 := 0x5B
abbrev backslash : UInt8 := 0x5C
abbrev closeBracket : UInt8 := 0x5D
abbrev openBrace : UInt8 := 0x7B
abbrev closeBrace : UInt8 := 0x7D

/-- Whether a byte is white space between values. -/
def isBlankByte (b : UInt8) : Bool := b == 0x20 || b == 0x0A || b == 0x0D || b == 0x09

/-- Whether a byte is a decimal digit. -/
def isDigitByte (b : UInt8) : Bool := 0x30 ≤ b && b ≤ 0x39

/-- A text without the white space in front of it. -/
def skipBlanks (bs : Bytes) : Bytes := bs.dropWhile isBlankByte

/-- What follows the bytes `word`, which have to come next. -/
def expect : Bytes → Bytes → Except ReadError Bytes
  | [], bs => .ok bs
  | _ :: _, [] => .error .truncated
  | w :: word, b :: bs => if w = b then expect word bs else .error .malformed

/-- What follows the byte `b`, which has to come next after white space. -/
def expectByte (b : UInt8) (bs : Bytes) : Except ReadError Bytes := expect [b] (skipBlanks bs)

/-- The remaining bytes of the literals `null`, `true` and `false` after the first. -/
def afterLetter? (b : UInt8) : Option Bytes :=
  if b = 0x6E then some (utf8 "ull")
  else if b = 0x74 then some (utf8 "rue")
  else if b = 0x66 then some (utf8 "alse")
  else none

@[simp] theorem expect_append (word bs : Bytes) : expect word (word ++ bs) = .ok bs := by
  induction word with
  | nil => cases bs <;> rfl
  | cons w word ih => simp [expect, ih]

end MarketCache.Json
