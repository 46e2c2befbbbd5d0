import MarketCache.Decimal.Shortest
import MarketCache.Json.Basic
import MarketCache.Json.Token
import MarketCache.Text.Digits

/-!
# JSON numbers

Writing and reading numbers. A number without fraction and exponent that fits 64 bits is kept
exactly. Any other is a double, computed from as many of its leading digits as fit 64 bits and
one multiplication or division by a power of ten, so the last bit may differ from the
nearest double.

Main definitions:
* `floatText`: a double as the shortest text that reads back.
* `readNumber`: a number that is kept, from after its minus sign.
* `skipNumber`: what follows a number that is not kept, from after its minus sign.
-/

namespace MarketCache.Json

/-! ## Writing -/

/-- A decimal number. With the first digit worth at least `10 ^ (-5)` and at most `10 ^ 15`
    it is written out, with a point and a digit behind it; otherwise one digit stands before
    the point and a power of ten follows, always with its sign. -/
def decimalText (d : Decimal) : List Char :=
  let ds := Text.decimal d.digits
  let first := d.exponent + ds.length - 1
  if -5 ≤ first ∧ first ≤ 15 then
    if 0 ≤ d.exponent then ds ++ List.replicate d.exponent.toNat '0' ++ ['.', '0']
    else if 0 ≤ first then ds.take (first + 1).toNat ++ '.' :: ds.drop (first + 1).toNat
    else '0' :: '.' :: List.replicate (-first - 1).toNat '0' ++ ds
  else
    let fraction := if ds.length = 1 then [] else '.' :: ds.drop 1
    ds.take 1 ++ fraction ++ 'e' :: (if first < 0 then '-' else '+') :: Text.decimal first.natAbs

/-- A double as the shortest text that reads back; one that is not finite has no number text
    and is written as `null`. -/
def floatText (x : Float) : List Char :=
  let bits := x.toBits
  let sign := if bits ≥ 0x8000000000000000 then ['-'] else []
  let b := Binary.ofBits bits
  if x.isNaN || x.isInf then "null".toList
  else if b.mantissa = 0 then sign ++ "0.0".toList
  else sign ++ decimalText b.shortest

/-! ## Reading -/

/-- The parts of a number without its sign: `significand * 10 ^ exponent`. -/
structure Numeral where
  significand : Nat
  exponent : Int
  /-- Whether all digits are in the significand and none of them is a fraction. -/
  whole : Bool
deriving DecidableEq, Repr

/-- Adds digits to a significand for as long as the result fits 64 bits. -/
def absorb (significand : Nat) : Bytes → Nat × Bytes
  | [] => (significand, [])
  | b :: rest =>
    let next := significand * 10 + (b.toNat - 0x30)
    if isDigitByte b && next < UInt64.size then absorb next rest else (significand, b :: rest)

/-- Failure at the end of a text or before a byte that cannot stand there. -/
def unexpected (bs : Bytes) : ReadError := if bs.isEmpty then .truncated else .malformed

/-- The digits before the point. -/
def readWhole : Bytes → Read Numeral
  | [] => .error .truncated
  | b :: rest =>
    if b = 0x30 then
      if (rest.head?.any isDigitByte) then .error .malformed else .ok (⟨0, 0, true⟩, rest)
    else if isDigitByte b then
      let (significand, rest) := absorb 0 (b :: rest)
      let extra := rest.takeWhile isDigitByte
      .ok (⟨significand, extra.length, extra.isEmpty⟩, rest.drop extra.length)
    else .error .malformed

/-- The digits behind the point, if there is one. -/
def readFraction (n : Numeral) : Bytes → Read Numeral
  | [] => .ok (n, [])
  | b :: rest =>
    if b = point then
      if rest.head?.any isDigitByte then
        let (significand, after) := absorb n.significand rest
        let exponent := n.exponent - (rest.length - after.length : Nat)
        .ok (⟨significand, exponent, false⟩, after.dropWhile isDigitByte)
      else .error (unexpected rest)
    else .ok (n, b :: rest)

/-- The power of ten, if there is one. -/
def readPower (n : Numeral) : Bytes → Read Numeral
  | [] => .ok (n, [])
  | b :: rest =>
    if b = 0x65 ∨ b = 0x45 then
      let (back, rest) :=
        match rest with
        | s :: after => if s = minus then (true, after) else if s = plus then (false, after)
            else (false, rest)
        | [] => (false, [])
      let ds := rest.takeWhile isDigitByte
      if ds.isEmpty then .error (unexpected rest)
      else
        let power : Int := Nat.ofDigitChars 10 (ds.map fun d => Char.ofNat d.toNat) 0
        .ok (⟨n.significand, n.exponent + (if back then -power else power), false⟩,
          rest.drop ds.length)
    else .ok (n, b :: rest)

/-- The double nearest to `10 ^ n`, for `n` up to 308. -/
def powerOfTen (n : Nat) : Float := Float.ofScientific 1 false n

/-- A double divided by `10 ^ n`, in steps of at most `10 ^ 308`. -/
def divideByPower (x : Float) (n : Nat) : Float :=
  if n ≤ 308 then x / powerOfTen n
  else if x == 0.0 then x
  else divideByPower (x / powerOfTen 308) (n - 308)
termination_by n

/-- A double times `10 ^ n`, unless that is beyond all doubles. -/
def scale? (x : Float) (n : Int) : Option Float :=
  if n < 0 then some (divideByPower x n.natAbs)
  else if n ≤ 308 then
    let y := x * powerOfTen n.toNat
    if y.isInf then none else some y
  else if x == 0.0 then some x
  else none

/-- The value of a number. A negative zero is a double. -/
def Numeral.value? (negative : Bool) (n : Numeral) : Option Json :=
  let z : Int := if negative then -n.significand else n.significand
  match Integer.ofInt? z with
  | some i => if n.whole && !(negative && n.significand == 0) then some (.int i) else approximate
  | none => approximate
where
  approximate : Option Json :=
    (scale? (UInt64.ofNat n.significand).toFloat n.exponent).map fun x =>
      .float (if negative then -x else x)

/-- The parts of a number, from after its minus sign. -/
def readNumeral (bs : Bytes) : Except ReadError (Numeral × Bytes) := do
  let (n, bs) ← readWhole bs
  let (n, bs) ← readFraction n bs
  readPower n bs

/-- A number that is kept, from after its minus sign. -/
def readNumber (negative : Bool) (bs : Bytes) : Except ReadError (Json × Bytes) := do
  let (n, bs) ← readNumeral bs
  match n.value? negative with
  | some v => .ok (v, bs)
  | none => .error .malformed

/-- What follows a number that is not kept, from after its minus sign. A number that is cut
    short counts as malformed here. -/
def skipNumber (bs : Bytes) : Except ReadError Bytes :=
  match readNumeral bs with
  | .ok (_, bs) => .ok bs
  | .error _ => .error .malformed

end MarketCache.Json
