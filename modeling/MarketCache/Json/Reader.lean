import MarketCache.Json.Number
import MarketCache.Json.Text

/-!
# Reading JSON values

A recursive descent over the bytes of a text. Arrays and objects may lie inside each other
only so deep; one more is refused at its opening bracket. The members of an object come out
sorted by key, and the last of several values of a key wins.

Main definition: `readValue`.
-/

namespace MarketCache.Json

/-- Whether another item or member follows one, after a comma, or the list ends here with the
    byte `close`. -/
def anotherFollows (close : UInt8) (bs : Bytes) : Except ReadError (Bool × Bytes) :=
  match skipBlanks bs with
  | [] => .error .truncated
  | b :: rest =>
    if b = close then .ok (false, rest)
    else if b = comma then .ok (true, rest)
    else .error .malformed

/-- A key and the colon behind it. -/
def readKey (bs : Bytes) : Except ReadError (String × Bytes) := do
  let bs ← expectByte quote bs
  let (key, bs) ← readText bs
  let bs ← expectByte colon bs
  .ok (key, bs)

/-- A value that is no array and no object and starts with the byte `b`. -/
def readScalar (b : UInt8) (rest : Bytes) : Except ReadError (Json × Bytes) :=
  if b = quote then do
    let (s, rest) ← readText rest
    .ok (.string s, rest)
  else if b = minus then readNumber true rest
  else if isDigitByte b then readNumber false (b :: rest)
  else
    match afterLetter? b with
    | some word => do
      let rest ← expect word rest
      .ok (if b = 0x6E then .null else .bool (b = 0x74), rest)
    | none => .error .malformed

mutual

/-- A value with at most `depth` arrays and objects inside each other. Every call uses up one
    unit of `fuel`, and twice as much as there are bytes is enough. -/
def valueWithin (fuel depth : Nat) (bs : Bytes) : Except ReadError (Json × Bytes) :=
  match fuel with
  | 0 => .error .truncated
  | fuel + 1 =>
    match skipBlanks bs with
    | [] => .error .truncated
    | b :: rest =>
      if b = openBracket then
        match depth, skipBlanks rest with
        | 0, _ => .error .malformed
        | _, [] => .error .truncated
        | depth + 1, c :: after =>
          if c = closeBracket then .ok (.array [], after)
          else itemsWithin fuel depth [] (c :: after)
      else if b = openBrace then
        match depth, skipBlanks rest with
        | 0, _ => .error .malformed
        | _, [] => .error .truncated
        | depth + 1, c :: after =>
          if c = closeBrace then .ok (.object [], after)
          else membersWithin fuel depth [] (c :: after)
      else readScalar b rest

/-- The items of an array from the next one on, after those that `acc` holds in reverse. -/
def itemsWithin (fuel depth : Nat) (acc : List Json) (bs : Bytes) :
    Except ReadError (Json × Bytes) :=
  match fuel with
  | 0 => .error .truncated
  | fuel + 1 =>
    match valueWithin fuel depth bs with
    | .error e => .error e
    | .ok (v, bs) =>
      match anotherFollows closeBracket bs with
      | .error e => .error e
      | .ok (false, rest) => .ok (.array (v :: acc).reverse, rest)
      | .ok (true, rest) => itemsWithin fuel depth (v :: acc) rest

/-- The members of an object from the next one on, added to those in `acc`. -/
def membersWithin (fuel depth : Nat) (acc : List (String × Json)) (bs : Bytes) :
    Except ReadError (Json × Bytes) :=
  match fuel with
  | 0 => .error .truncated
  | fuel + 1 =>
    match readKey bs with
    | .error e => .error e
    | .ok (key, bs) =>
      match valueWithin fuel depth bs with
      | .error e => .error e
      | .ok (v, bs) =>
        match anotherFollows closeBrace bs with
        | .error e => .error e
        | .ok (false, rest) => .ok (.object (setMember key v acc), rest)
        | .ok (true, rest) => membersWithin fuel depth (setMember key v acc) rest

end

/-- The next value of a text, with at most `depth` arrays and objects inside each other. -/
def readValue (depth : Nat) (bs : Bytes) : Except ReadError (Json × Bytes) :=
  valueWithin (2 * bs.length + 2) depth bs

/-- The value of a whole text. -/
def parse (depth : Nat) (bs : Bytes) : Except ReadError Json := do
  let (v, rest) ← readValue depth bs
  if skipBlanks rest = [] then .ok v else .error .malformed

end MarketCache.Json
