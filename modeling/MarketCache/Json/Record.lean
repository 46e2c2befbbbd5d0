import MarketCache.Json.Reader
import MarketCache.Json.Skip
import MarketCache.Time.Timestamp.Reader

/-!
# Reading records

A record is JSON text with named fields of known types: an object with the fields in any
order, or an array of their values in the order of their declaration. Members of other names
are skipped. A field that is there twice is refused before its second value is looked at,
and a value of the wrong kind as soon as its kind is known.

Main definitions:
* `textField`, `instantField`, …: readers of typed values.
* `Shape`, `Shape.read`: a record as a list of fields, and its reader.
* `Shape.parse`: the record of a whole text.
-/

namespace MarketCache.Json

/-- The most arrays and objects that may lie inside each other, a record around them
    included. -/
def depthLimit : Nat := 127

/-! ## Typed values -/

/-- The failure at a value of the wrong kind that starts with the byte `b`. A scalar is read
    first, and may turn out to be none. -/
def wrongKind (b : UInt8) (rest : Bytes) : ReadError :=
  if b = openBracket ∨ b = openBrace then .mismatched
  else
    match readScalar b rest with
    | .error e => e
    | .ok _ => .mismatched

/-- A string. -/
def textField (bs : Bytes) : Except ReadError (String × Bytes) :=
  match skipBlanks bs with
  | [] => .error .truncated
  | b :: rest => if b = quote then readText rest else .error (wrongKind b rest)

/-- A string or `null`. -/
def optionalTextField (bs : Bytes) : Except ReadError (Option String × Bytes) :=
  match skipBlanks bs with
  | 0x6E :: rest => do
    let rest ← expect (utf8 "ull") rest
    .ok (none, rest)
  | bs => do
    let (s, rest) ← textField bs
    .ok (some s, rest)

/-- A timestamp in a string. -/
def instantField (bs : Bytes) : Except ReadError (Instant × Bytes) := do
  let (s, rest) ← textField bs
  match Instant.ofTimestamp? s with
  | some t => .ok (t, rest)
  | none => .error .mismatched

/-- A whole number below `2 ^ 32`. -/
def word32Field (bs : Bytes) : Except ReadError (UInt32 × Bytes) :=
  match skipBlanks bs with
  | [] => .error .truncated
  | b :: rest =>
    if b = minus ∨ isDigitByte b then do
      let (v, rest) ← readScalar b rest
      match v with
      | .int z =>
        if 0 ≤ z.val ∧ z.val < 4294967296 then .ok (UInt32.ofNat z.val.toNat, rest)
        else .error .mismatched
      | _ => .error .mismatched
    else .error (wrongKind b rest)

/-! ## Records -/

/-- One field of a record whose values so far are kept in a `σ`. -/
structure Field (σ : Type) where
  name : String
  /-- Whether the record has to have the field. -/
  required : Bool
  /-- Whether its value is there. -/
  isSet : σ → Bool
  /-- Reads its value. -/
  read : Bytes → σ → Except ReadError (σ × Bytes)

/-- A field with a reader for its value and a way to keep it. -/
def Field.of {σ β : Type} (name : String) (required : Bool)
    (value : Bytes → Except ReadError (β × Bytes)) (get : σ → Option β)
    (set : β → σ → σ) : Field σ where
  name := name
  required := required
  isSet s := (get s).isSome
  read bs s := do
    let (v, rest) ← value bs
    .ok (set v s, rest)

/-- A record: its fields in the order of their declaration, the state in which none of them is
    there, and what it amounts to in the end. -/
structure Shape (σ α : Type) where
  fields : List (Field σ)
  start : σ
  /-- The record, if no field is missing. -/
  finish? : σ → Option α

namespace Shape

variable {σ α : Type}

/-- The record that was read, if no field is missing. -/
def finish (shape : Shape σ α) (s : σ) (rest : Bytes) : Except ReadError (α × Bytes) :=
  match shape.finish? s with
  | some a => .ok (a, rest)
  | none => .error .mismatched

/-- The value of the member `key`, from its colon on. -/
def member (shape : Shape σ α) (key : String) (s : σ) (bs : Bytes) :
    Except ReadError (σ × Bytes) :=
  match shape.fields.find? (·.name == key) with
  | some field =>
    if field.isSet s then .error .mismatched
    else do
      let bs ← expectByte colon bs
      field.read bs s
  | none => do
    let bs ← expectByte colon bs
    let bs ← skipValue bs
    .ok (s, bs)

/-- The members of an object from the next one on. Every member uses up one unit of `fuel`. -/
def members (shape : Shape σ α) : Nat → σ → Bytes → Except ReadError (α × Bytes)
  | 0, _, _ => .error .truncated
  | fuel + 1, s, bs => do
    let bs ← expectByte quote bs
    let (key, bs) ← readText bs
    let (s, bs) ← shape.member key s bs
    let (more, bs) ← anotherFollows closeBrace bs
    if more then shape.members fuel s bs else shape.finish s bs

/-- The end of an array that may hold no further item. -/
def endOfItems (bs : Bytes) : Except ReadError Bytes :=
  match skipBlanks bs with
  | [] => .error .truncated
  | b :: rest => if b = closeBracket then .ok rest else .error .malformed

/-- The items of an array, one for each of the fields that are left. `first` tells that no item
    came before. An array that ends early lacks the fields that are left. -/
def items (shape : Shape σ α) : List (Field σ) → Bool → σ → Bytes → Except ReadError (α × Bytes)
  | [], _, s, bs => do
    let rest ← endOfItems bs
    shape.finish s rest
  | field :: fields, first, s, bs =>
    match skipBlanks bs with
    | [] => .error .truncated
    | b :: rest =>
      if b = closeBracket then
        if (field :: fields).any (·.required) then .error .mismatched else shape.finish s rest
      else if first then do
        let (s, bs) ← field.read (b :: rest) s
        shape.items fields false s bs
      else do
        let bs ← expectByte comma (b :: rest)
        let (s, bs) ← field.read bs s
        shape.items fields false s bs

/-- The next record of a text. -/
def read (shape : Shape σ α) (bs : Bytes) : Except ReadError (α × Bytes) :=
  match skipBlanks bs with
  | [] => .error .truncated
  | b :: rest =>
    if b = openBrace then
      match skipBlanks rest with
      | [] => .error .truncated
      | c :: after =>
        if c = closeBrace then shape.finish shape.start after
        else shape.members rest.length shape.start (c :: after)
    else if b = openBracket then shape.items shape.fields true shape.start rest
    else .error (wrongKind b rest)

/-- The record of a whole text. -/
def parse (shape : Shape σ α) (bs : Bytes) : Except ReadError α := do
  let (a, rest) ← shape.read bs
  if skipBlanks rest = [] then .ok a else .error .malformed

end Shape

end MarketCache.Json
