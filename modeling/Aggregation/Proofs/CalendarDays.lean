import Aggregation.Calendar
import Mathlib.Algebra.BigOperators.Group.List.Basic
import Mathlib.Algebra.Order.Ring.Nat

/-!
# Days of the calendar

Years follow each other without a gap, each as long as its months together. So every day number
has a date: the periods of 400, 100, 4 and 1 years find the year that holds the day, the walk
through the months finds the place within the year, and the date that is found exists.

## Main results

* `Calendar.daysBeforeYear_succ` - a year begins where the one before it ends.
* `Calendar.yearOfDay_spec` - the year of a day, and the place of the day in it.
* `Date.dayNumber_ofDayNumber`, `Date.isValid_ofDayNumber` - every day has a date.
* `Date.year_ofDayNumber_lt_iff` - the year of a day, by the first days of years.
-/

namespace Aggregation

namespace Calendar

variable {year : ℤ}

/-! ## Years -/

/-- The number of days of a year. -/
def yearLength (year : ℤ) : ℕ := if isLeapYear year then 366 else 365

theorem isLeapYear_iff :
    isLeapYear year = true ↔ year % 4 = 0 ∧ (year % 100 ≠ 0 ∨ year % 400 = 0) := by
  simp [isLeapYear]

theorem yearLength_cases (year : ℤ) :
    (year % 4 = 0 ∧ (year % 100 ≠ 0 ∨ year % 400 = 0)) ∧ yearLength year = 366 ∨
      ¬ (year % 4 = 0 ∧ (year % 100 ≠ 0 ∨ year % 400 = 0)) ∧ yearLength year = 365 := by
  rw [yearLength, ← isLeapYear_iff]
  split <;> simp [*]

theorem sum_monthLengths (year : ℤ) : (monthLengths year).sum = yearLength year := by
  rw [monthLengths, yearLength]
  split <;> rfl

/-- A year begins where the one before it ends. -/
theorem daysBeforeYear_succ (year : ℤ) :
    daysBeforeYear (year + 1) = daysBeforeYear year + yearLength year := by
  simp only [daysBeforeYear]
  rcases yearLength_cases year with ⟨hleap, hlength⟩ | ⟨hleap, hlength⟩ <;> rw [hlength] <;> omega

theorem daysBeforeYear_le {year' : ℤ} (h : year ≤ year') :
    daysBeforeYear year ≤ daysBeforeYear year' := by
  simp only [daysBeforeYear]
  omega

/-- The days before a year that is the `years`-th of a cycle of four years, in a century, in a
period of 400 years: the leap days of the periods that are over are all counted. -/
theorem daysBeforeYear_of_periods {quads centuries cycles years : ℤ}
    (hcenturies : 0 ≤ centuries ∧ centuries ≤ 3) (hcycles : 0 ≤ cycles ∧ cycles ≤ 24)
    (hyears : 0 ≤ years ∧ years ≤ 3) :
    daysBeforeYear (400 * quads + 100 * centuries + 4 * cycles + years + 1) =
      146097 * quads + 36524 * centuries + 1461 * cycles + 365 * years := by
  simp only [daysBeforeYear]
  omega

/-- **The year of a day**, and the place of the day in it. -/
theorem yearOfDay_spec (day : ℤ) :
    daysBeforeYear (yearOfDay day).1 + (yearOfDay day).2 = day ∧
      (yearOfDay day).2 < yearLength (yearOfDay day).1 := by
  simp only [yearOfDay]
  generalize hquads : day / 146097 = quads
  generalize hinQuad : day % 146097 = inQuad
  generalize hcenturies : min 3 (inQuad / 36524) = centuries
  generalize hinCentury : inQuad - 36524 * centuries = inCentury
  generalize hcycles : inCentury / 1461 = cycles
  generalize hinCycle : inCentury % 1461 = inCycle
  generalize hyears : min 3 (inCycle / 365) = years
  -- Only the last century and the last year of a cycle can have a day more.
  have hcentury : 0 ≤ inCentury ∧ (inCentury < 36524 ∨ centuries = 3 ∧ inCentury = 36524) := by
    omega
  have hcycle : 0 ≤ inCycle ∧ inCycle < 1461 ∧ 0 ≤ cycles ∧ cycles ≤ 24 := by omega
  have hyear : 0 ≤ years ∧ years ≤ 3 ∧ 365 * years ≤ inCycle ∧
      (inCycle < 365 * years + 365 ∨ years = 3 ∧ inCycle = 1460) := by omega
  constructor
  · rw [daysBeforeYear_of_periods (by omega) (by omega) (by omega)]
    omega
  · rcases yearLength_cases (400 * quads + 100 * centuries + 4 * cycles + years + 1) with
      ⟨hleap, hlength⟩ | ⟨hleap, hlength⟩ <;> rw [hlength] <;> omega

/-! ## Months -/

/-- The walk through the months ends in one of them, with the days of the ones before it and the
days that are left making up the day. -/
theorem monthOfDay_spec {lengths : List ℕ} {day : ℕ} (h : day < lengths.sum) :
    ((lengths.take (monthOfDay lengths day).1).sum + (monthOfDay lengths day).2 = day) ∧
      ∃ length, lengths[(monthOfDay lengths day).1]? = some length ∧
        (monthOfDay lengths day).2 < length := by
  induction lengths generalizing day with
  | nil => simp at h
  | cons length lengths ih =>
    rw [monthOfDay]
    by_cases hday : day < length
    · simp [hday]
    · rw [List.sum_cons] at h
      have hrest : day - length < lengths.sum := by omega
      obtain ⟨hsum, hmonth⟩ := ih hrest
      rw [if_neg hday]
      simp only [List.take_succ_cons, List.sum_cons, List.getElem?_cons_succ]
      exact ⟨by omega, hmonth⟩

end Calendar

namespace Date

open Calendar

/-- **Every day has a date**, with the day's number. -/
theorem dayNumber_ofDayNumber (days : ℤ) : (ofDayNumber days).dayNumber = days := by
  obtain ⟨hyear, hlt⟩ := yearOfDay_spec (days + epochDay)
  rw [← sum_monthLengths] at hlt
  obtain ⟨hmonth, -⟩ := monthOfDay_spec hlt
  simp only [ofDayNumber, dayNumber, Nat.add_sub_cancel, ← List.sum_eq_foldl]
  omega

theorem isValid_iff {date : Date} : date.isValid = true ↔ 1 ≤ date.month ∧ 1 ≤ date.day ∧
    ∃ length, (monthLengths date.year)[date.month - 1]? = some length ∧ date.day ≤ length := by
  rw [isValid]
  cases (monthLengths date.year)[date.month - 1]? <;> simp [and_assoc]

/-- The date of a day exists. -/
theorem isValid_ofDayNumber (days : ℤ) : (ofDayNumber days).isValid = true := by
  obtain ⟨-, hlt⟩ := yearOfDay_spec (days + epochDay)
  rw [← sum_monthLengths] at hlt
  obtain ⟨-, length, hlength, hday⟩ := monthOfDay_spec hlt
  rw [isValid_iff]
  simp only [ofDayNumber]
  exact ⟨Nat.le_add_left .., Nat.le_add_left .., length, hlength, hday⟩

/-- A date that exists is in one of twelve months, none of which has more than 31 days. -/
theorem bounds_of_isValid {date : Date} (h : date.isValid = true) :
    date.month ≤ 12 ∧ date.day ≤ 31 := by
  obtain ⟨-, -, length, hlength, hday⟩ := isValid_iff.mp h
  obtain ⟨hmonth, -⟩ := List.getElem?_eq_some_iff.mp hlength
  have hlengths : ∀ length ∈ monthLengths date.year, length ≤ 31 := by
    simp only [monthLengths, List.forall_mem_cons]
    split <;> simp
  have hle := hlengths length (List.mem_of_getElem? hlength)
  have hmonths : (monthLengths date.year).length = 12 := rfl
  exact ⟨by omega, Nat.le_trans hday hle⟩

/-- The day of New Year. -/
theorem dayNumber_newYear (year : ℤ) :
    (Date.mk year 1 1).dayNumber = daysBeforeYear year - epochDay := by
  simp [dayNumber]

/-- The date of a day lies before a year exactly if the day comes before New Year. -/
theorem year_ofDayNumber_lt_iff (days year : ℤ) :
    (ofDayNumber days).year < year ↔ days < (Date.mk year 1 1).dayNumber := by
  obtain ⟨hday, hlt⟩ := yearOfDay_spec (days + epochDay)
  have hnext := daysBeforeYear_succ (yearOfDay (days + epochDay)).1
  rw [dayNumber_newYear]
  change (yearOfDay (days + epochDay)).1 < year ↔ _
  constructor
  · intro h
    have hle := daysBeforeYear_le (Int.add_one_le_of_lt h)
    omega
  · intro h
    by_contra hge
    have hle := daysBeforeYear_le (Int.not_lt.mp hge)
    omega

end Date
end Aggregation
