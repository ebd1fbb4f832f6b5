import Aggregation.Binary64.Basic

/-!
# Rounding to the nearest Binary64

An exact nonnegative ratio is rounded once, to the nearest number, halves to the
even significand, overflowing to infinity from `2 ^ 1024 - 2 ^ 970` on. The
nonnegative numbers in increasing order have the places `0, 1, 2, …`, infinity
the place `2047 * 2 ^ 52`; with `n` units of `2 ^ shift` the place is
`shift * 2 ^ 52 + n`, so a carry out of the significand needs no case of its own.
-/

namespace Aggregation

/-- The integer nearest to `num / den`, a half going to the even neighbour. -/
def roundHalfEven (num den : Nat) : Nat :=
  let floor := num / den
  let twice := 2 * (num % den)
  if twice < den then floor
  else if den < twice then floor + 1
  else if floor % 2 = 0 then floor
  else floor + 1

namespace Binary64

/-- The number at a place in the order of magnitudes; places past the last finite
number are infinity. -/
def atPlace (negative : Bool) (place : Nat) : Binary64 :=
  if h : place < 2047 * 0x10000000000000 then
    ⟨negative, ⟨place / 0x10000000000000, by omega⟩, ⟨place % 0x10000000000000, by omega⟩⟩
  else
    infinity negative

/-- The number nearest to `num / den`, for a positive `den`, under the given sign. -/
def nearest (negative : Bool) (num den : Nat) : Binary64 :=
  let units := num * unitsPerOne
  let shift := (units / den).log2 - 52
  atPlace negative (shift * 0x10000000000000 + roundHalfEven units (den * twoTo shift))

/-- The number nearest to a natural number. -/
def ofNat (n : Nat) : Binary64 := nearest false n 1

/-- The number nearest to an integer. -/
def ofInt (n : Int) : Binary64 := nearest (decide (n < 0)) n.natAbs 1

/-- The number nearest to `10 ^ k`. -/
def powerOfTen (k : Nat) : Binary64 := ofNat (tenTo k)

/-- The number nearest to `digits * 10 ^ exponent`. Exponents that put the value
beyond every finite number, or below half a unit, are answered without computing
the power. -/
def ofScientific (negative : Bool) (digits : Nat) (exponent : Int) : Binary64 :=
  if digits = 0 then zero negative
  else if 310 < exponent then infinity negative
  else if 0 ≤ exponent then nearest negative (digits * tenTo exponent.toNat) 1
  else if (digits.log2 : Int) + 1100 < -exponent then zero negative
  else nearest negative digits (tenTo (-exponent).toNat)

end Binary64
end Aggregation
