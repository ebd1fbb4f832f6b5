import Aggregation.Binary64.Arithmetic

/-!
# Decimals

A decimal is an integer of 96 bits and a sign over at most `10 ^ 28`. Decimals are compared
by value, so 4 and 4.00 are equal. The conversion to `Binary64` rounds the whole part and the
fraction apart, joins them and snaps the sum to the decimal's own number of places, so it may
differ from the nearest number by a unit in the last place.
-/

namespace Aggregation

/-- The number `mantissa / 10 ^ scale`. -/
structure Decimal where
  mantissa : Int
  scale : Nat
  mantissa_lt : mantissa.natAbs < 0x1000000000000000000000000 := by decide
  scale_le : scale ≤ 28 := by decide

namespace Decimal

/-- The power of ten under the mantissa. -/
def denominator (d : Decimal) : Nat := tenTo d.scale

/-- Whether two decimals are the same number, whatever their scales. -/
def equal (a b : Decimal) : Bool :=
  a.mantissa * b.denominator == b.mantissa * a.denominator

/-- The integer that a decimal is, when its fraction is zero. -/
def toInt? (d : Decimal) : Option Int :=
  if d.mantissa % d.denominator = 0 then some (d.mantissa / d.denominator) else none

/-- The magnitude as a `Binary64`. -/
def magnitude (d : Decimal) : Binary64 :=
  let whole := Binary64.ofNat (d.mantissa.natAbs / d.denominator)
  let fraction :=
    Binary64.ofNat (d.mantissa.natAbs % d.denominator) / Binary64.ofNat d.denominator
  if fraction.isZero then whole
  else
    let power := Binary64.powerOfTen d.scale
    ((whole + fraction) * power).round / power

/-- The decimal as a `Binary64`, the sign put on last. -/
def toBinary64 (d : Decimal) : Binary64 :=
  d.magnitude.withSign (decide (d.mantissa < 0))

end Decimal
end Aggregation
