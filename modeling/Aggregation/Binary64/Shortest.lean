import Aggregation.Binary64.Basic

/-!
# The shortest decimal of a Binary64

The decimals that read back as a given number fill an interval around it, whose
ends belong to it when the significand is even. On the decimal grids with one,
two, … seventeen digits the two neighbours of the number are tried, and the first
grid with a neighbour inside the interval gives the decimal: the nearer one, and
of two equally near ones the even one.
-/

namespace Aggregation

/-- The number `digits * 10 ^ exponent`. -/
structure ScientificDecimal where
  digits : Nat
  exponent : Int
  deriving DecidableEq

/-- How many decimal digits a positive natural number has. -/
def digitCount (n : Nat) : Nat :=
  if n < 10 then 1 else digitCount (n / 10) + 1
  termination_by n

namespace ScientificDecimal

/-- Move the trailing zeros of the digits into the exponent. -/
def normalize (digits : Nat) (exponent : Int) : ScientificDecimal :=
  if digits ≠ 0 ∧ digits % 10 = 0 then normalize (digits / 10) (exponent + 1)
  else ⟨digits, exponent⟩
  termination_by digits

end ScientificDecimal

namespace Binary64

/-- The decimals that read back as one number: multiples of `1 / scale`, the
number itself at `center`. -/
structure ReadInterval where
  scale : Nat
  center : Nat
  lower : Nat
  upper : Nat
  /-- Whether the two ends themselves read back. -/
  closed : Bool

namespace ReadInterval

/-- Whether `num / scale` lies within the interval, `bounds` being scaled alike. -/
def contains (bounds : ReadInterval) (num : Nat) : Bool :=
  if bounds.closed then
    decide (bounds.lower ≤ num) && decide (num ≤ bounds.upper)
  else
    decide (bounds.lower < num) && decide (num < bounds.upper)

/-- The interval in a finer scale. -/
def refine (bounds : ReadInterval) (factor : Nat) : ReadInterval :=
  { bounds with
    scale := bounds.scale * factor
    center := bounds.center * factor
    lower := bounds.lower * factor
    upper := bounds.upper * factor }

/-- The neighbour of the center among the multiples of `step` that lies within
the interval and is nearest to the center, as a multiple of `step`. -/
def multiple? (bounds : ReadInterval) (step : Nat) : Option Nat :=
  let below := bounds.center / step
  let gap := bounds.center % step
  let belowFits := bounds.contains (below * step)
  let aboveFits := bounds.contains ((below + 1) * step)
  let belowWins := decide (2 * gap < step) || (decide (2 * gap = step) && below % 2 == 0)
  if belowFits && (belowWins || !aboveFits) then some below
  else if aboveFits then some (below + 1)
  else none

end ReadInterval

/-- The decimals that read back as a positive finite number, in quarters of a unit.
Below a power of two the neighbour is half as far as above it. -/
def readInterval (x : Binary64) : ReadInterval where
  scale := 4 * unitsPerOne
  center := 4 * x.units
  lower :=
    let gap := if x.fraction.val = 0 ∧ 1 < x.exponent.val then 1 else 2
    (4 * x.significand - gap) * twoTo x.shift
  upper := (4 * x.significand + 2) * twoTo x.shift
  closed := x.significand % 2 == 0

/-- The exponent of the leading decimal digit of a positive finite number. -/
def leadingExponent (x : Binary64) : Int :=
  (digitCount (x.units * tenTo 324 / unitsPerOne) : Int) - 325

/-- The decimal on the grid of `10 ^ exponent` that reads back, if there is one. -/
def onGrid? (x : Binary64) (exponent : Int) : Option ScientificDecimal :=
  let bounds := x.readInterval.refine (tenTo (-exponent).toNat)
  let step := x.readInterval.scale * tenTo exponent.toNat
  (bounds.multiple? step).map (ScientificDecimal.normalize · exponent)

/-- The shortest decimal that reads back as a positive finite number. Seventeen
digits always suffice, so the fallback zero stands for zero only. -/
def shortest (x : Binary64) : ScientificDecimal :=
  ((List.range 17).findSome? fun (i : Nat) => x.onGrid? (x.leadingExponent - i)).getD ⟨0, 0⟩

end Binary64
end Aggregation
