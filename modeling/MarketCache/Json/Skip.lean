import MarketCache.Json.Number
import MarketCache.Json.Text

/-!
# Skipping JSON values

A value that nobody asked for is only checked for its brackets, commas and words. It may be
nested to any depth, its strings may hold any bytes, and its numbers any digits.

Main definition: `skipValue`.
-/

namespace MarketCache.Json

/-- What is open around the place where a reader stands. -/
inductive Enclosing where
  | array
  | object
deriving DecidableEq, Repr

/-- The byte that closes an array or object. -/
def Enclosing.close : Enclosing → UInt8
  | .array => closeBracket
  | .object => closeBrace

/-- What comes next in a value that is skipped. -/
inductive Skip where
  /-- A value. -/
  | value
  /-- The first item of the innermost array or object, or its end. -/
  | first
  /-- An item of the innermost array or object. -/
  | item
  /-- The comma after a value, or the end of what encloses it. -/
  | after
deriving DecidableEq, Repr

/-- What follows a value that is no array and no object and starts with the byte `b`. -/
def skipScalar (b : UInt8) (rest : Bytes) : Except ReadError Bytes :=
  if b = quote then skipText rest
  else if b = minus then skipNumber rest
  else if isDigitByte b then skipNumber (b :: rest)
  else
    match afterLetter? b with
    | some word => expect word rest
    | none => .error .malformed

/-- What follows a key that is skipped and the colon behind it. -/
def skipKey (bs : Bytes) : Except ReadError Bytes := do
  let bs ← expectByte quote bs
  let bs ← skipText bs
  expectByte colon bs

/-- What follows the value that is being skipped. The innermost of the open arrays and objects
    comes first. Every step uses up one unit of `fuel`; three for each byte are enough. -/
def skipWithin : Nat → Skip → List Enclosing → Bytes → Except ReadError Bytes
  | 0, _, _, _ => .error .truncated
  | fuel + 1, .value, stack, bs =>
    match skipBlanks bs with
    | [] => .error .truncated
    | b :: rest =>
      if b = openBracket then skipWithin fuel .first (.array :: stack) rest
      else if b = openBrace then skipWithin fuel .first (.object :: stack) rest
      else
        match skipScalar b rest with
        | .error e => .error e
        | .ok rest => skipWithin fuel .after stack rest
  | _ + 1, _, [], bs => .ok bs
  | fuel + 1, .first, inner :: stack, bs =>
    match skipBlanks bs with
    | [] => .error .truncated
    | b :: rest =>
      if b = inner.close then skipWithin fuel .after stack rest
      else skipWithin fuel .item (inner :: stack) (b :: rest)
  | fuel + 1, .item, .array :: stack, bs => skipWithin fuel .value (.array :: stack) bs
  | fuel + 1, .item, .object :: stack, bs =>
    match skipKey bs with
    | .error e => .error e
    | .ok rest => skipWithin fuel .value (.object :: stack) rest
  | fuel + 1, .after, inner :: stack, bs =>
    match skipBlanks bs with
    | [] => .error .truncated
    | b :: rest =>
      if b = comma then skipWithin fuel .item (inner :: stack) rest
      else if b = inner.close then skipWithin fuel .after stack rest
      else .error .malformed

/-- What follows the next value of a text. -/
def skipValue (bs : Bytes) : Except ReadError Bytes :=
  skipWithin (3 * bs.length + 3) .value [] bs

end MarketCache.Json
