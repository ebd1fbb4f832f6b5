import Aggregation.Binary64.Conversion
import Aggregation.Decimal
import Aggregation.Digits
import Aggregation.Json.Basic
import Aggregation.Word

/-!
# Numbers

A number given as a float, a decimal or a string of digits is held as an integer
when it is one that 64 bits can hold, without a sign only when it needs to be;
otherwise as a float. An integral number is written without a fraction.
-/

namespace Aggregation

/-- A number as it goes on the wire. -/
inductive Number where
  | integral (n : Int64)
  | unsigned (n : UInt64)
  | floating (x : Binary64)

namespace Number

/-- An integer of the signed or, beyond it, the unsigned range of 64 bits. -/
def ofInt? (n : Int) : Option Number :=
  match Word.signed? n, Word.unsigned? n with
  | some i, _ => some (.integral i)
  | none, some u => some (.unsigned u)
  | none, none => none

/-- Split a float on its fraction: an integer in range, or the float itself. As floats the
greatest words are rounded up, to `2 ^ 63` and `2 ^ 64`, which are out of their ranges. -/
def ofBinary64 (x : Binary64) : Number :=
  if !x.fract.isZero || x.lt (.ofInt Word.leastSigned) ||
      (Binary64.ofInt Word.greatestUnsigned).le x then
    .floating x
  else if x.lt (.ofInt Word.greatestSigned) then
    .integral x.toInt64
  else
    .unsigned x.toUInt64

/-- An integer of 64 bits without a sign. -/
def ofUInt64 (n : UInt64) : Number :=
  ((Word.signed? n.toNat).map .integral).getD (.unsigned n)

/-- Split a decimal on its fraction: an integer in range, or the float it makes. -/
def ofDecimal (d : Decimal) : Number :=
  (d.toInt?.bind ofInt?).getD (.floating d.toBinary64)

/-- The number that digits spell; beyond 64 bits, what the nearest float makes. -/
def ofDigits (digits : List Char) : Number :=
  let n := Digits.value digits
  (ofInt? n).getD (ofBinary64 (Binary64.ofNat n))

/-- The nearest float. -/
def toBinary64 : Number → Binary64
  | .integral n => Binary64.ofInt n.toInt
  | .unsigned n => Binary64.ofNat n.toNat
  | .floating x => x

/-- The wire form. NaN and the infinities have no literal and become null. -/
def render : Number → Json
  | .integral n => .integer n.toInt
  | .unsigned n => .integer n.toNat
  | .floating x => if x.isFinite then .float x else .null

/-- Equality: each form equals only its own kind, floats compare numerically. -/
def equal : Number → Number → Bool
  | .integral m, .integral n => m == n
  | .unsigned m, .unsigned n => m == n
  | .floating x, .floating y => x.equal y
  | _, _ => false

end Number
end Aggregation
