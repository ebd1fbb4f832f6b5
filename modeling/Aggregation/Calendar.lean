/-!
# The proleptic Gregorian calendar

Dates and the number of days since 1970-01-01, for every integer year. A year is
found from a day number by taking off whole periods of 400, 100, 4 and 1 years, a
month by walking through the lengths of the months.
-/

namespace Aggregation

/-- A date: months and days count from one. -/
structure Date where
  year : Int
  month : Nat
  day : Nat
  deriving DecidableEq, Repr

namespace Calendar

/-- Whether a year has 366 days. -/
def isLeapYear (year : Int) : Bool :=
  year % 4 == 0 && (year % 100 != 0 || year % 400 == 0)

/-- The lengths of the twelve months of a year. -/
def monthLengths (year : Int) : List Nat :=
  [31, if isLeapYear year then 29 else 28, 31, 30, 31, 30, 31, 31, 30, 31, 30, 31]

/-- The days from 0001-01-01 to the first day of a year. -/
def daysBeforeYear (year : Int) : Int :=
  let past := year - 1
  365 * past + past / 4 - past / 100 + past / 400

/-- The days from 0001-01-01 to 1970-01-01. -/
def epochDay : Int := 719162

/-- The year that holds a day counted from 0001-01-01, and the days before that day
within the year. -/
def yearOfDay (day : Int) : Int × Nat :=
  let quads := day / 146097
  let inQuad := day % 146097
  let centuries := min 3 (inQuad / 36524)
  let inCentury := inQuad - 36524 * centuries
  let cycles := inCentury / 1461
  let inCycle := inCentury % 1461
  let years := min 3 (inCycle / 365)
  (400 * quads + 100 * centuries + 4 * cycles + years + 1, (inCycle - 365 * years).toNat)

/-- How many months pass before a day of the year, and the days left after them. -/
def monthOfDay : List Nat → Nat → Nat × Nat
  | [], day => (0, day)
  | length :: lengths, day =>
    if day < length then (0, day)
    else
      let (months, left) := monthOfDay lengths (day - length)
      (months + 1, left)

end Calendar

namespace Date

open Calendar

/-- Whether the month and the day exist in the year. -/
def isValid (date : Date) : Bool :=
  1 ≤ date.month && 1 ≤ date.day &&
    match (monthLengths date.year)[date.month - 1]? with
    | some length => date.day ≤ length
    | none => false

/-- The days from 1970-01-01 to a valid date. -/
def dayNumber (date : Date) : Int :=
  let daysBeforeMonth : Nat := ((monthLengths date.year).take (date.month - 1)).foldl (· + ·) 0
  daysBeforeYear date.year + daysBeforeMonth + date.day - 1 - epochDay

/-- The date that lies so many days after 1970-01-01. -/
def ofDayNumber (days : Int) : Date :=
  let (year, dayOfYear) := yearOfDay (days + epochDay)
  let (months, left) := monthOfDay (monthLengths year) dayOfYear
  ⟨year, months + 1, left + 1⟩

end Date
end Aggregation
