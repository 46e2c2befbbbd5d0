/-!
# Binary fractions

A positive finite double as an exact product of a whole number and a power of two, with the
reals that are nearer to it than to its neighbours. Everything is counted in quarters of
the last binary place, so that both ends of that stretch are whole numbers.

Main definitions:
* `Binary.ofBits`: the fraction of the sixty-three low bits of a double.
* `Binary.contains`: whether a decimal number reads back as the fraction.
-/

namespace MarketCache

/-- The positive number `mantissa * 2 ^ exponent`. -/
structure Binary where
  mantissa : Nat
  exponent : Int
  /-- Whether the neighbour below is only half as far away as the neighbour above. -/
  narrow : Bool
deriving DecidableEq, Repr

namespace Binary

/-- The fraction that a double's exponent field of 11 bits and fraction field of 52 bits
    describe. -/
def ofBits (bits : UInt64) : Binary :=
  let field : Nat := bits.toNat / 0x10000000000000 % 0x800
  let fraction : Nat := bits.toNat % 0x10000000000000
  if field = 0 then ⟨fraction, -1074, false⟩
  else ⟨0x10000000000000 + fraction, (field : Int) - 1075, fraction = 0 && 1 < field⟩

/-- The quarters of the last place in the fraction. -/
def quarters (b : Binary) : Nat := 4 * b.mantissa

/-- The lower end of the reals that round to the fraction, in quarters. -/
def low (b : Binary) : Nat := b.quarters - if b.narrow then 1 else 2

/-- The upper end of the reals that round to the fraction, in quarters. -/
def high (b : Binary) : Nat := b.quarters + 2

/-- The numerator of `n` quarters as a multiple of `10 ^ grid`. -/
def scaled (b : Binary) (grid : Int) (n : Nat) : Nat :=
  n * Nat.pow 2 (b.exponent - 2).toNat * Nat.pow 10 (-grid).toNat

/-- The denominator of all multiples of `10 ^ grid`. -/
def unit (b : Binary) (grid : Int) : Nat := Nat.pow 2 (2 - b.exponent).toNat * Nat.pow 10 grid.toNat

/-- Whether `d * 10 ^ grid` rounds to the fraction. Both ends belong to a fraction with an
    even mantissa, since a tie goes to the even neighbour. -/
def contains (b : Binary) (grid : Int) (d : Nat) : Bool :=
  let x := d * b.unit grid
  let lo := b.scaled grid b.low
  let hi := b.scaled grid b.high
  if b.mantissa % 2 = 0 then lo ≤ x && x ≤ hi else lo < x && x < hi

end Binary

end MarketCache
