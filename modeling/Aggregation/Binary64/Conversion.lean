import Aggregation.Binary64.Nearest
import Aggregation.Word

/-!
# Comparing Binary64 numbers and casting them to words

Numbers are compared by their exact values, with the infinities beyond all finite numbers;
a NaN compares with nothing. A cast to a word of 64 bits cuts the fraction off and stays
within the range of the word.
-/

namespace Aggregation.Binary64

/-- Whether a number is below another. -/
def lt (x y : Binary64) : Bool :=
  !x.isNaN && !y.isNaN && decide (x.signedUnits < y.signedUnits)

/-- Whether a number is at most another. -/
def le (x y : Binary64) : Bool :=
  !x.isNaN && !y.isNaN && decide (x.signedUnits ≤ y.signedUnits)

/-- What is left of a number without its integral part, under its sign. A part that is zero has
no sign, and an infinity leaves a NaN. -/
def fract (x : Binary64) : Binary64 :=
  if x.isFinite then
    let rest := x.units % unitsPerOne
    nearest (x.negative && rest != 0) rest unitsPerOne
  else
    nan

/-- The integral part, or the bound that it exceeds; zero for a NaN. -/
def toIntWithin (least greatest : Int) (x : Binary64) : Int :=
  let n := x.signedUnits.tdiv unitsPerOne
  if x.isNaN then 0
  else if n < least then least
  else if greatest < n then greatest
  else n

/-- The signed word that is nearest to the integral part. -/
def toInt64 (x : Binary64) : Int64 :=
  Int64.ofInt (x.toIntWithin Word.leastSigned Word.greatestSigned)

/-- The unsigned word that is nearest to the integral part. -/
def toUInt64 (x : Binary64) : UInt64 :=
  UInt64.ofNat (x.toIntWithin 0 Word.greatestUnsigned).toNat

end Aggregation.Binary64
