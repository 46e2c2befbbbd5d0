import MarketCache.Decimal.Binary

/-!
# Shortest decimals

The fewest digits that read back as a given double, and of those the nearest to it. For one
digit, two digits and so on the number has two neighbours among the multiples of a power of
ten; the first count of digits at which one of them reads back decides.

Main definitions:
* `Binary.pick`: the multiple of one power of ten that reads back, if there is one.
* `Binary.shortest`: the digits and the power of ten of their last place.
-/

namespace MarketCache

/-- The number `digits * 10 ^ exponent`. -/
structure Decimal where
  digits : Nat
  exponent : Int
deriving DecidableEq, Repr

namespace Decimal

/-- Drops trailing zeros of the digits, at most `fuel` of them. -/
def strip : Nat → Decimal → Decimal
  | 0, d => d
  | fuel + 1, d => if d.digits % 10 = 0 then strip fuel ⟨d.digits / 10, d.exponent + 1⟩ else d

end Decimal

namespace Binary

/-- The power of ten of the first digit. No positive double is below `10 ^ (-324)`. -/
def firstPlace (b : Binary) : Int :=
  ((Nat.toDigits 10 (b.scaled (-324) b.quarters / b.unit (-324))).length : Int) - 325

/-- The multiple of `10 ^ grid` that reads back: the nearer one of two, the even one of two
    that are equally near. -/
def pick (b : Binary) (grid : Int) : Option Nat :=
  let x := b.scaled grid b.quarters
  let d := x / b.unit grid
  let rest := x % b.unit grid
  match b.contains grid d, b.contains grid (d + 1) with
  | true, true =>
    if 2 * rest < b.unit grid ∨ (2 * rest = b.unit grid ∧ d % 2 = 0) then some d else some (d + 1)
  | true, false => some d
  | false, true => some (d + 1)
  | false, false => none

/-- The fewest digits that read back, `first` being the power of ten of the first digit;
    `count + 1` to seventeen digits are tried. -/
def shortestFrom (b : Binary) (first : Int) : Nat → Decimal
  | 0 => ⟨b.scaled (first - 16) b.quarters / b.unit (first - 16), first - 16⟩
  | left + 1 =>
    let grid := first - (16 - left : Nat)
    match b.pick grid with
    | some d => ⟨d, grid⟩
    | none => shortestFrom b first left

/-- The shortest decimal number that reads back as the fraction. -/
def shortest (b : Binary) : Decimal := (shortestFrom b b.firstPlace 17).strip 17

end Binary

end MarketCache
