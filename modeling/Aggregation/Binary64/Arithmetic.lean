import Aggregation.Binary64.Nearest

/-!
# Arithmetic on finite Binary64 numbers

Each operation takes the exact result and rounds it once. The operands are
finite and a divisor is not zero; results may overflow to infinity.
-/

namespace Aggregation.Binary64

/-- The exact product, rounded. -/
def mul (x y : Binary64) : Binary64 :=
  nearest (x.negative != y.negative) (x.units * y.units) (unitsPerOne * unitsPerOne)

/-- The exact quotient, rounded. -/
def div (x y : Binary64) : Binary64 :=
  nearest (x.negative != y.negative) x.units y.units

/-- The exact sum, rounded; two negative zeros make a negative zero. -/
def add (x y : Binary64) : Binary64 :=
  let sum := x.signedUnits + y.signedUnits
  let negative := if sum = 0 then x.negative && y.negative else decide (sum < 0)
  nearest negative sum.natAbs unitsPerOne

/-- The nearest integral number, a half going away from zero. -/
def round (x : Binary64) : Binary64 :=
  nearest x.negative ((2 * x.units + unitsPerOne) / (2 * unitsPerOne)) 1

/-- The same magnitude under the other sign. -/
def neg (x : Binary64) : Binary64 := x.withSign !x.negative

instance : Mul Binary64 := ⟨mul⟩
instance : Div Binary64 := ⟨div⟩
instance : Add Binary64 := ⟨add⟩
instance : Neg Binary64 := ⟨neg⟩

instance (n : Nat) : OfNat Binary64 n := ⟨ofNat n⟩

instance : OfScientific Binary64 where
  ofScientific digits negativeExponent exponent :=
    ofScientific false digits (if negativeExponent then -exponent else exponent)

end Aggregation.Binary64
