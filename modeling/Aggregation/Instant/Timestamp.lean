import Aggregation.Digits
import Aggregation.Instant.Clock

/-!
# RFC 3339 timestamps

Reading takes a full date and time with an offset, `T`, `t` or a blank between the
two, and any number of fraction digits, of which nine count. The second 60 is
taken in any minute. Writing drops what is below a millisecond and gives UTC;
years outside 0 to 9999 carry a sign.
-/

namespace Aggregation.Instant

/-! ## Reading -/

/-- Take one character if it is among the given ones. -/
def takeOne? (choices : List Char) : List Char → Option (Char × List Char)
  | c :: text => if choices.contains c then some (c, text) else none
  | [] => none

/-- The fraction of a second in nanoseconds, zero when there is none. -/
def takeFraction? (text : List Char) : Option (Nat × List Char) :=
  match text with
  | '.' :: rest =>
    let digits := rest.takeWhile Char.isDigit
    if digits.isEmpty then none
    else
      let nine := (digits ++ List.replicate 9 '0').take 9
      some (Digits.value nine, rest.dropWhile Char.isDigit)
  | _ => some (0, text)

/-- The offset from UTC in minutes. The minus may be the hyphen or U+2212. -/
def takeOffset? (text : List Char) : Option (Int × List Char) := do
  let (sign, text) ← takeOne? ['Z', 'z', '+', '-', '\u2212'] text
  if sign = 'Z' ∨ sign = 'z' then return (0, text)
  let (hours, text) ← Digits.take? 2 text
  let (_, text) ← takeOne? [':'] text
  let (minutes, text) ← Digits.take? 2 text
  let offset : Int := hours * 60 + minutes
  if minutes < 60 ∧ hours < 24 then
    return (if sign = '+' then offset else -offset, text)
  else none

/-- The date at the front of a text, which need not exist. -/
def takeDate? (text : List Char) : Option (Date × List Char) := do
  let (year, text) ← Digits.take? 4 text
  let (_, text) ← takeOne? ['-'] text
  let (month, text) ← Digits.take? 2 text
  let (_, text) ← takeOne? ['-'] text
  let (day, text) ← Digits.take? 2 text
  return (⟨year, month, day⟩, text)

/-- The time at the front of a text, which need not exist. -/
def takeTime? (text : List Char) : Option (TimeOfDay × List Char) := do
  let (hour, text) ← Digits.take? 2 text
  let (_, text) ← takeOne? [':'] text
  let (minute, text) ← Digits.take? 2 text
  let (_, text) ← takeOne? [':'] text
  let (second, text) ← Digits.take? 2 text
  let (nanosecond, text) ← takeFraction? text
  return (⟨hour, minute, second, nanosecond⟩, text)

/-- The instant that a timestamp denotes. -/
def ofCharacters? (text : List Char) : Option Instant := do
  let (date, text) ← takeDate? text
  let (_, text) ← takeOne? ['T', 't', ' '] text
  let (time, text) ← takeTime? text
  let (offset, text) ← takeOffset? text
  if text.isEmpty ∧ date.isValid ∧ time.isValid then
    return ofClock date time offset
  else none

/-- The instant that a timestamp denotes. -/
def ofString? (text : String) : Option Instant := ofCharacters? text.toList

/-! ## Writing -/

/-- A year in four digits, with a sign when it lies outside 0 to 9999. -/
def yearText (year : Int) : List Char :=
  let digits := Digits.padded 4 year.natAbs
  if year < 0 then '-' :: digits
  else if 9999 < year then '+' :: digits
  else digits

def dateText (date : Date) : List Char :=
  yearText date.year ++ '-' :: (Digits.padded 2 date.month ++ '-' :: Digits.padded 2 date.day)

/-- A time to the millisecond. -/
def timeText (time : TimeOfDay) : List Char :=
  Digits.padded 2 time.hour ++ ':' :: (Digits.padded 2 time.minute ++
    ':' :: (Digits.padded 2 time.second ++ '.' :: Digits.padded 3 (time.nanosecond / 1000000)))

/-- The timestamp of an instant in UTC, to the millisecond. -/
def characters (i : Instant) : List Char :=
  dateText i.date ++ 'T' :: (timeText i.timeOfDay ++ ['Z'])

/-- The timestamp of an instant in UTC, to the millisecond. -/
def toTimestamp (i : Instant) : String := String.ofList i.characters

end Aggregation.Instant
