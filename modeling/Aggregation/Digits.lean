/-!
# Decimal digits

Natural numbers and the ASCII digits that spell them. Leading zeros spell the
same number; the text of a number has none.
-/

namespace Aggregation.Digits

/-- The digits of a natural number. -/
def text (n : Nat) : List Char := Nat.toDigits 10 n

/-- The digits of a natural number, with zeros in front up to a width. -/
def padded (width n : Nat) : List Char :=
  List.replicate (width - (text n).length) '0' ++ text n

/-- The value of one digit. -/
def digitValue (c : Char) : Nat := c.toNat - 48

/-- The natural number that digits spell. -/
def value (digits : List Char) : Nat :=
  digits.foldl (fun n c => n * 10 + digitValue c) 0

/-- Whether a text is nonempty and holds ASCII digits only. -/
def isNumeral (characters : List Char) : Bool :=
  !characters.isEmpty && characters.all Char.isDigit

/-- Take exactly `count` digits and return the number they spell. -/
def take? (count : Nat) (characters : List Char) : Option (Nat × List Char) :=
  let digits := characters.take count
  if digits.length = count ∧ digits.all Char.isDigit then
    some (value digits, characters.drop count)
  else
    none

end Aggregation.Digits
