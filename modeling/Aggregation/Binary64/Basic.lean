import Aggregation.Power

/-!
# Binary64 numbers

A `Binary64` is the bit pattern of an IEEE 754 double: sign, biased exponent and
fraction. A finite one is a whole number of `units`, the unit being the least
positive number `2 ^ -1074`; so values are compared and combined as natural
numbers, and no rounding hides in the definitions. Every bit pattern is a value
of this type, NaNs with any payload included. The fraction has 52 bits, so it
ranges below `2 ^ 52 = 0x10000000000000`.
-/

namespace Aggregation

/-- The three fields of an IEEE 754 double. -/
structure Binary64 where
  /-- The sign bit. -/
  negative : Bool
  /-- The biased exponent; 2047 marks infinities and NaNs. -/
  exponent : Fin 2048
  /-- The stored bits of the significand. -/
  fraction : Fin 0x10000000000000
  deriving DecidableEq

namespace Binary64

/-- How many units `2 ^ -1074` make the number one. -/
def unitsPerOne : Nat := twoTo 1074

def isFinite (x : Binary64) : Bool := x.exponent.val != 2047

def isInfinite (x : Binary64) : Bool := x.exponent.val == 2047 && x.fraction.val == 0

def isNaN (x : Binary64) : Bool := x.exponent.val == 2047 && x.fraction.val != 0

def isZero (x : Binary64) : Bool := x.exponent.val == 0 && x.fraction.val == 0

/-- The zero of the given sign. -/
def zero (negative : Bool) : Binary64 := ⟨negative, 0, 0⟩

/-- The infinity of the given sign. -/
def infinity (negative : Bool) : Binary64 := ⟨negative, 2047, 0⟩

/-- The NaN with only the leading bit of the fraction set. -/
def nan : Binary64 := ⟨false, 2047, 0x8000000000000⟩

/-- The same magnitude under the given sign. -/
def withSign (x : Binary64) (negative : Bool) : Binary64 := { x with negative }

/-- The significand as an integer, the leading bit of a normal number included. -/
def significand (x : Binary64) : Nat :=
  if x.exponent.val = 0 then x.fraction.val else 0x10000000000000 + x.fraction.val

/-- The power of two by which the significand counts units. -/
def shift (x : Binary64) : Nat := x.exponent.val - 1

/-- The magnitude of a finite number, counted in units. -/
def units (x : Binary64) : Nat := x.significand * twoTo x.shift

/-- The value of a finite number, counted in units. -/
def signedUnits (x : Binary64) : Int :=
  if x.negative then -(x.units : Int) else x.units

/-- The integer that a finite number is, when its fractional part is zero. -/
def toInt? (x : Binary64) : Option Int :=
  if x.isFinite && x.units % unitsPerOne == 0 then
    let magnitude : Int := x.units / unitsPerOne
    some (if x.negative then -magnitude else magnitude)
  else
    none

/-- Numeric equality: a NaN equals nothing, and the two zeros are equal. -/
def equal (x y : Binary64) : Bool :=
  !x.isNaN && !y.isNaN && (decide (x = y) || (x.isZero && y.isZero))

theorem units_zero (negative : Bool) : (zero negative).units = 0 := by
  simp [units, significand, zero]

end Binary64
end Aggregation
