import Aggregation.Binary64.Arithmetic
import Aggregation.Binary64.Shortest
import Aggregation.Digits
import Aggregation.Json.Basic
import Aggregation.Json.SyntaxError

/-!
# Numerals

Writing: integers in plain digits; floats by the shortest decimal that reads back
as the same number under correct rounding, positional from `10 ^ -5` up to below
`10 ^ 16`, with an exponent elsewhere.

Reading: a numeral without point and exponent is an integer while it fits 64
bits. Any other is a float: the leading digits that fit 64 bits are scaled by one
multiplication or division with a rounded power of ten, which is fast but may
miss the nearest float by a unit in the last place.
-/

namespace Aggregation.Json

/-! ## Writing -/

/-- An integer in plain digits. -/
def integerText (n : Int) : List Char :=
  if n < 0 then '-' :: Digits.text n.natAbs else Digits.text n.natAbs

/-- The digits with a point after the first, and the exponent with its sign. -/
def exponentText (digits : List Char) (exponent : Int) : List Char :=
  let point := if digits.length ≤ 1 then [] else '.' :: digits.drop 1
  let sign := if exponent < 0 then '-' else '+'
  digits.take 1 ++ point ++ 'e' :: sign :: Digits.text exponent.natAbs

/-- The digits around a point, the first of them at `10 ^ exponent`. -/
def positionalText (digits : List Char) (exponent : Int) : List Char :=
  if exponent < 0 then
    '0' :: '.' :: List.replicate (-exponent - 1).toNat '0' ++ digits
  else
    let whole := exponent.toNat + 1
    if digits.length ≤ whole then
      digits ++ List.replicate (whole - digits.length) '0' ++ ['.', '0']
    else
      digits.take whole ++ '.' :: digits.drop whole

/-- A decimal, positional where its first digit stands between `10 ^ -5` and
`10 ^ 15`. -/
def decimalText (d : ScientificDecimal) : List Char :=
  let digits := Digits.text d.digits
  let exponent := d.exponent + digits.length - 1
  if -5 ≤ exponent ∧ exponent ≤ 15 then positionalText digits exponent
  else exponentText digits exponent

/-- A float; what is not finite has no numeral and is written as null. -/
def floatText (x : Binary64) : List Char :=
  if !x.isFinite then ['n', 'u', 'l', 'l']
  else
    let magnitude := if x.isZero then ['0', '.', '0'] else decimalText x.shortest
    if x.negative then '-' :: magnitude else magnitude

/-! ## Reading -/

/-- Append digits to a significand while it fits 64 bits; the first that does not
fit and all after it are left over. -/
def absorb (significand : Nat) : List Char → Nat × List Char
  | [] => (significand, [])
  | c :: digits =>
    let next := significand * 10 + Digits.digitValue c
    if next < 0x10000000000000000 then absorb next digits else (significand, c :: digits)

/-- Divide by `10 ^ 308` up to `times` times, stopping at zero. -/
def divideDown : Nat → Binary64 → Binary64
  | 0, x => x
  | times + 1, x => if x.isZero then x else divideDown times (x / Binary64.powerOfTen 308)

/-- Scale a significand by a power of ten: by a rounded power, in steps of at
most `10 ^ 308` downwards. Above the largest float there is no answer. -/
def scaled (significand : Nat) (exponent : Int) : Except SyntaxError Binary64 :=
  let x := Binary64.ofNat significand
  if 0 ≤ exponent then
    if 308 < exponent then
      if x.isZero then .ok x else .error .numberOutOfRange
    else
      let y := x * Binary64.powerOfTen exponent.toNat
      if y.isInfinite then .error .numberOutOfRange else .ok y
  else
    let places := (-exponent).toNat
    let steps := (places - 1) / 308
    .ok (divideDown steps x / Binary64.powerOfTen (places - 308 * steps))

/-- The fault of a text that should go on with a digit. -/
def digitMissing (text : List Char) : SyntaxError :=
  if text.isEmpty then .endInValue else .invalidNumber

/-- Read what follows the digits of a numeral whose significand and exponent are
known so far: an exponent, if there is one. The result is a float. -/
def readExponent (negative : Bool) (significand : Nat) (exponent : Int) (text : List Char) :
    Except SyntaxError (Json × List Char) := do
  let finish (written : Int) (rest : List Char) := do
    let x ← scaled significand (exponent + written)
    return (Json.float (x.withSign negative), rest)
  match text with
  | c :: rest =>
    if c = 'e' ∨ c = 'E' then
      let (down, rest) := match rest with
        | '+' :: rest => (false, rest)
        | '-' :: rest => (true, rest)
        | rest => (false, rest)
      let digits := rest.takeWhile Char.isDigit
      let rest := rest.dropWhile Char.isDigit
      if digits.isEmpty then .error (digitMissing rest)
      else
        let written : Int := Digits.value digits
        finish (if down then -written else written) rest
    else finish 0 text
  | [] => finish 0 text

/-- An integer numeral whose digits fit 64 bits. With a minus, zero and what is
below the signed range become floats. -/
def integerNumeral (negative : Bool) (n : Nat) : Json :=
  if !negative then .integer n
  else if n = 0 ∨ 0x8000000000000000 < n then .float ((Binary64.ofNat n).withSign true)
  else .integer (-n)

/-- Read a numeral whose minus, if any, has been taken. -/
def readNumeral (negative : Bool) (text : List Char) :
    Except SyntaxError (Json × List Char) := do
  let whole := text.takeWhile Char.isDigit
  let rest := text.dropWhile Char.isDigit
  match whole with
  | [] => .error (digitMissing rest)
  | '0' :: _ :: _ => .error .invalidNumber
  | _ =>
    let (significand, left) := absorb 0 whole
    match rest with
    | '.' :: rest =>
      let places := rest.takeWhile Char.isDigit
      let rest := rest.dropWhile Char.isDigit
      if places.isEmpty then .error (digitMissing rest)
      else
        let (significand, dropped) := absorb significand places
        readExponent negative significand
          (left.length + dropped.length - places.length) rest
    | c :: _ =>
      if left.isEmpty ∧ c ≠ 'e' ∧ c ≠ 'E' then
        .ok (integerNumeral negative significand, rest)
      else readExponent negative significand left.length rest
    | [] =>
      if left.isEmpty then .ok (integerNumeral negative significand, [])
      else readExponent negative significand left.length []

end Aggregation.Json
