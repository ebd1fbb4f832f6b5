import Aggregation.Rendering
import Aggregation.Value.Builders
import Aggregation.Proofs.CalendarDays
import Aggregation.Proofs.DigitTexts
import Mathlib.Data.List.Induction
import Mathlib.Data.Nat.Digits.Defs

/-!
# Timestamps that are written

A date is written in UTC, to the millisecond. The text is a timestamp again as long as the year
of UTC has four digits, since others are written with a sign, which no reader takes. The offset of
a text can lead out of these years, from either end: `9999-12-31T23:59:59-00:01` is read, and what
it is written as is not.

A leap second is read in any minute. As offsets are whole minutes it stays the last second of a
minute, where it is written with the second 60 again.

## Main definitions

* `Instant.toMilliseconds` - the instant without what is below a millisecond.
* `Instant.InFourDigitYears` - the instants of the years 0 to 9999.

## Main results

* `Instant.ofClock_utc` - the date and the time in UTC determine the instant.
* `Instant.ofCharacters?_characters`, `Instant.ofCharacters?_signed` - what is written is read
  in the years 0 to 9999, and in no other.
* `Value.render_ofTimestamp` - what this says of values that are made from timestamps.
-/

namespace Aggregation

/-! ## Digits of a fixed width -/

namespace Digits

variable {width count n : ℕ} {digits rest : List Char}

theorem length_padded (hwidth : 0 < width) (h : n < 10 ^ width) :
    (padded width n).length = width := by
  have hle : (text n).length ≤ width := Nat.toDigits_length 10 n width hwidth h
  rw [padded, List.length_append, List.length_replicate]
  omega

theorem isDigit_of_mem_padded {c : Char} (h : c ∈ padded width n) : c.isDigit = true := by
  rcases List.mem_append.mp h with hzero | hdigit
  · rw [(List.mem_replicate.mp hzero).2]
    rfl
  · exact isDigit_of_mem_text hdigit

theorem value_padded (width n : ℕ) : value (padded width n) = n := by
  rw [padded, value_zeros_append, value_text]

/-- Digits are taken off the front. -/
theorem take?_append (hdigits : ∀ c ∈ digits, c.isDigit = true) (rest : List Char) :
    take? digits.length (digits ++ rest) = some (value digits, rest) := by
  simp only [take?, List.take_left, List.drop_left, List.all_eq_true, true_and]
  rw [if_pos hdigits]

/-- A number that fits its width is read. -/
theorem take?_padded (hwidth : 0 < width) (h : n < 10 ^ width) (rest : List Char) :
    take? width (padded width n ++ rest) = some (n, rest) := by
  have hdigits : ∀ c ∈ padded width n, c.isDigit = true := fun c => isDigit_of_mem_padded
  have htake := take?_append hdigits rest
  rwa [length_padded hwidth h, value_padded] at htake

/-- No number is read where the text begins with another character. -/
theorem take?_eq_none {c : Char} (hc : c.isDigit = false) (hcount : 0 < count) :
    take? count (c :: rest) = none := by
  obtain ⟨count, rfl⟩ := Nat.exists_eq_succ_of_ne_zero hcount.ne'
  simp [take?, hc]

/-- Digits spell a number of no more digits. -/
theorem value_lt (hdigits : ∀ c ∈ digits, c.isDigit = true) :
    value digits < 10 ^ digits.length := by
  induction digits using List.reverseRecOn with
  | nil => decide
  | append_singleton digits c ih =>
    have hrest := ih fun c hc => hdigits c (List.mem_append_left _ hc)
    have hdigit : digitValue c ≤ 9 := by
      have hc := hdigits c (List.mem_append_right _ (List.mem_singleton_self c))
      simp only [Char.isDigit, Bool.and_eq_true, decide_eq_true_eq] at hc
      have hle : c.toNat ≤ 57 := hc.2
      rw [digitValue]
      omega
    have hvalue : value (digits ++ [c]) = value digits * 10 + digitValue c := List.foldl_append
    rw [hvalue, List.length_append, List.length_singleton, pow_succ]
    omega

end Digits

theorem TimeOfDay.isValid_iff {time : TimeOfDay} :
    time.isValid = true ↔ time.hour < 24 ∧ time.minute < 60 ∧ time.second ≤ 60 := by
  simp [isValid, and_assoc]

namespace Instant

/-- The instant without what is below a millisecond. -/
def toMilliseconds (i : Instant) : Instant :=
  ⟨i.seconds, ⟨i.nanoseconds.val / 1000000 * 1000000, by omega⟩⟩

/-- The instant lies in one of the years 0 to 9999 of UTC. -/
def InFourDigitYears (i : Instant) : Prop :=
  (Date.mk 0 1 1).dayNumber * 86400 ≤ i.seconds ∧ i.seconds < (Date.mk 10000 1 1).dayNumber * 86400

instance (i : Instant) : Decidable i.InFourDigitYears := inferInstanceAs (Decidable (_ ∧ _))

/-- If the instant lies in a leap second, that is the last second of a minute. -/
def LeapsAtEndOfMinute (i : Instant) : Prop := i.inLeapSecond = true → i.seconds % 60 = 59

variable {i : Instant} {date : Date} {time : TimeOfDay} {text rest : List Char} {offset : ℤ}

/-! ## Clocks -/

theorem inLeapSecond_iff : i.inLeapSecond = true ↔ 1000000000 ≤ i.nanoseconds.val :=
  decide_eq_true_iff

theorem isValid_timeOfDay (i : Instant) : i.timeOfDay.isValid = true := by
  rw [TimeOfDay.isValid_iff]
  simp only [timeOfDay]
  omega

/-- **A clock in UTC shows the instant.** -/
theorem ofClock_utc (h : i.LeapsAtEndOfMinute) : ofClock i.date i.timeOfDay 0 = i := by
  rw [LeapsAtEndOfMinute, inLeapSecond_iff] at h
  have hday : i.date.dayNumber = i.seconds / 86400 := Date.dayNumber_ofDayNumber _
  have hhour : i.timeOfDay.hour = (i.seconds % 86400).toNat / 3600 := rfl
  have hminute : i.timeOfDay.minute = (i.seconds % 86400).toNat / 60 % 60 := rfl
  have hsecond : i.timeOfDay.second =
    (i.seconds % 86400).toNat % 60 + i.nanoseconds.val / 1000000000 := rfl
  have hnanosecond : i.timeOfDay.nanosecond = i.nanoseconds.val % 1000000000 := rfl
  ext
  · simp only [ofClock]
    omega
  · simp only [ofClock, Fin.val_ofNat]
    split <;> omega

/-- What is below a millisecond on a clock is below a millisecond of the instant. -/
theorem ofClock_milliseconds (h : time.nanosecond < 1000000000) :
    ofClock date { time with nanosecond := time.nanosecond / 1000000 * 1000000 } offset =
      (ofClock date time offset).toMilliseconds := by
  simp only [ofClock, toMilliseconds, mk.injEq, Fin.ext_iff, Fin.val_ofNat, true_and]
  split <;> omega

/-- Offsets are whole minutes, so a leap second on a clock is the last second of a minute in UTC. -/
theorem leapsAtEndOfMinute_ofClock (h : time.nanosecond < 1000000000) :
    (ofClock date time offset).LeapsAtEndOfMinute := by
  intro hleap
  rw [inLeapSecond_iff] at hleap
  simp only [ofClock, Fin.val_ofNat] at hleap ⊢
  split at hleap <;> omega

/-- The year of UTC has four digits exactly for the instants of these years. -/
theorem inFourDigitYears_iff : i.InFourDigitYears ↔ 0 ≤ i.date.year ∧ i.date.year ≤ 9999 := by
  have hlow := Date.year_ofDayNumber_lt_iff (i.seconds / 86400) 0
  have hhigh := Date.year_ofDayNumber_lt_iff (i.seconds / 86400) 10000
  rw [InFourDigitYears, date]
  omega

/-! ## Reading -/

theorem takeOne?_cons {choices : List Char} {c : Char} (h : c ∈ choices) (text : List Char) :
    takeOne? choices (c :: text) = some (c, text) := by
  simp [takeOne?, h]

/-- Nine digits of a fraction count. -/
theorem fraction_lt {fraction : ℕ} (h : takeFraction? text = some (fraction, rest)) :
    fraction < 1000000000 := by
  rw [takeFraction?.eq_def] at h
  split at h
  · simp only at h
    split at h
    · contradiction
    · cases h
      refine (Digits.value_lt ?_).trans_le ?_
      · intro c hc
        rcases List.mem_append.mp (List.mem_of_mem_take hc) with hdigit | hzero
        · exact List.all_eq_true.mp List.all_takeWhile c hdigit
        · rw [(List.mem_replicate.mp hzero).2]
          rfl
      · exact Nat.pow_le_pow_right (by decide) (List.length_take_le _ _)
  · cases h
    decide

theorem nanosecond_lt (h : takeTime? text = some (time, rest)) : time.nanosecond < 1000000000 := by
  simp only [takeTime?, Option.bind_eq_bind, Option.bind_eq_some_iff, Prod.exists] at h
  obtain ⟨_, _, -, _, _, -, _, _, -, _, _, -, _, _, -, _, _, hfraction, htime⟩ := h
  cases htime
  exact fraction_lt hfraction

/-- An instant that is read is what a clock shows. -/
theorem leapsAtEndOfMinute_of_read (h : ofCharacters? text = some i) : i.LeapsAtEndOfMinute := by
  simp only [ofCharacters?, Option.bind_eq_bind, Option.bind_eq_some_iff, Prod.exists] at h
  obtain ⟨_, _, -, _, _, -, time, _, htime, _, _, -, h⟩ := h
  split at h
  · cases h
    exact leapsAtEndOfMinute_ofClock (nanosecond_lt htime)
  · contradiction

/-! ## Reading what is written -/

theorem takeFraction?_milliseconds {n : ℕ} (h : n < 1000) (hrest : Json.EndsDigits rest) :
    takeFraction? ('.' :: (Digits.padded 3 n ++ rest)) = some (n * 1000000, rest) := by
  have hdigits : ∀ c ∈ Digits.padded 3 n, c.isDigit = true := fun c => Digits.isDigit_of_mem_padded
  have hlength : (Digits.padded 3 n).length = 3 := Digits.length_padded (by decide) h
  have hnine : (Digits.padded 3 n ++ List.replicate 9 '0').take 9 =
      Digits.padded 3 n ++ List.replicate 6 '0' := by
    rw [List.take_append, hlength, List.take_of_length_le (by omega)]
    rfl
  have hne : (Digits.padded 3 n).isEmpty = false := by
    rw [List.isEmpty_eq_false_iff, ← List.length_pos_iff, hlength]
    decide
  simp only [takeFraction?, Json.takeWhile_digits hdigits hrest,
    Json.dropWhile_digits hdigits hrest, hnine, hne, Digits.value_append_zeros,
    Digits.value_padded]
  rfl

/-- A date whose year has four digits is read. -/
theorem takeDate?_dateText (hvalid : date.isValid = true)
    (hyear : 0 ≤ date.year ∧ date.year ≤ 9999) (rest : List Char) :
    takeDate? (dateText date ++ rest) = some (date, rest) := by
  obtain ⟨hmonth, hday⟩ := Date.bounds_of_isValid hvalid
  have hdigits : yearText date.year = Digits.padded 4 date.year.natAbs := by
    rw [yearText, if_neg (by omega), if_neg (by omega)]
  have hnatAbs : (date.year.natAbs : ℤ) = date.year := Int.natAbs_of_nonneg hyear.1
  simp only [takeDate?, dateText, hdigits, List.append_assoc, List.cons_append,
    Option.bind_eq_bind]
  rw [Digits.take?_padded (by decide) (by omega), Option.bind_some,
    takeOne?_cons (by decide), Option.bind_some,
    Digits.take?_padded (by decide) (by omega), Option.bind_some,
    takeOne?_cons (by decide), Option.bind_some,
    Digits.take?_padded (by decide) (by omega), Option.bind_some, hnatAbs]
  rfl

/-- A year with a sign is not read. -/
theorem takeDate?_signed (hyear : ¬ (0 ≤ date.year ∧ date.year ≤ 9999)) (rest : List Char) :
    takeDate? (dateText date ++ rest) = none := by
  have hsign : ∃ c digits, yearText date.year = c :: digits ∧ c.isDigit = false := by
    rw [yearText]
    by_cases hneg : date.year < 0
    · rw [if_pos hneg]
      exact ⟨'-', _, rfl, rfl⟩
    · rw [if_neg hneg, if_pos (by omega)]
      exact ⟨'+', _, rfl, rfl⟩
  obtain ⟨c, digits, htext, hc⟩ := hsign
  simp only [takeDate?, dateText, htext, List.cons_append, Option.bind_eq_bind]
  rw [Digits.take?_eq_none hc (by decide), Option.bind_none]

/-- A time is read, except what is below a millisecond. -/
theorem takeTime?_timeText (hvalid : time.isValid = true) (h : time.nanosecond < 1000000000)
    (hrest : Json.EndsDigits rest) : takeTime? (timeText time ++ rest) =
      some ({ time with nanosecond := time.nanosecond / 1000000 * 1000000 }, rest) := by
  obtain ⟨hhour, hminute, hsecond⟩ := TimeOfDay.isValid_iff.mp hvalid
  simp only [takeTime?, timeText, List.append_assoc, List.cons_append, Option.bind_eq_bind]
  rw [Digits.take?_padded (by decide) (by omega), Option.bind_some,
    takeOne?_cons (by decide), Option.bind_some,
    Digits.take?_padded (by decide) (by omega), Option.bind_some,
    takeOne?_cons (by decide), Option.bind_some,
    Digits.take?_padded (by decide) (by omega), Option.bind_some,
    takeFraction?_milliseconds (by omega) hrest, Option.bind_some]
  rfl

/-- **What is written is read**, except what is below a millisecond. -/
theorem ofCharacters?_characters (hleap : i.LeapsAtEndOfMinute) (hyear : i.InFourDigitYears) :
    ofCharacters? i.characters = some i.toMilliseconds := by
  have hdate : i.date.isValid = true := Date.isValid_ofDayNumber _
  have hnanosecond : i.timeOfDay.nanosecond < 1000000000 := Nat.mod_lt _ (by decide)
  have hends : Json.EndsDigits ['Z'] := by simp [Json.EndsDigits]
  have hoffset : takeOffset? ['Z'] = some (0, []) := rfl
  simp only [ofCharacters?, characters, Option.bind_eq_bind]
  rw [takeDate?_dateText hdate (inFourDigitYears_iff.mp hyear), Option.bind_some,
    takeOne?_cons (by decide), Option.bind_some,
    takeTime?_timeText i.isValid_timeOfDay hnanosecond hends, Option.bind_some, hoffset,
    Option.bind_some, if_pos ⟨rfl, hdate, i.isValid_timeOfDay⟩, ofClock_milliseconds hnanosecond,
    ofClock_utc hleap]
  rfl

theorem ofCharacters?_signed (hyear : ¬ i.InFourDigitYears) :
    ofCharacters? i.characters = none := by
  simp only [ofCharacters?, characters, Option.bind_eq_bind]
  rw [takeDate?_signed (mt inFourDigitYears_iff.mpr hyear), Option.bind_none]

/-- What is below a millisecond is not written. -/
theorem characters_toMilliseconds (i : Instant) :
    i.toMilliseconds.characters = i.characters := by
  have hsecond : i.nanoseconds.val / 1000000 * 1000000 / 1000000000 =
      i.nanoseconds.val / 1000000000 := by omega
  have hmillisecond : i.nanoseconds.val / 1000000 * 1000000 % 1000000000 / 1000000 =
      i.nanoseconds.val % 1000000000 / 1000000 := by omega
  have htime : timeText i.toMilliseconds.timeOfDay = timeText i.timeOfDay := by
    simp only [timeText, timeOfDay, toMilliseconds, hsecond, hmillisecond]
  rw [characters, htime]
  rfl

/-! ## Texts -/

theorem ofString?_toTimestamp (i : Instant) :
    ofString? i.toTimestamp = ofCharacters? i.characters := by
  rw [ofString?, toTimestamp, String.toList_ofList]

theorem toTimestamp_toMilliseconds (i : Instant) :
    i.toMilliseconds.toTimestamp = i.toTimestamp := by
  rw [toTimestamp, characters_toMilliseconds, toTimestamp]

/-- A timestamp ends with the mark of UTC. -/
theorem exists_toTimestamp_eq (i : Instant) : ∃ front, i.toTimestamp = front ++ "Z" := by
  refine ⟨String.ofList (dateText i.date ++ 'T' :: timeText i.timeOfDay), ?_⟩
  rw [toTimestamp, characters, ← List.cons_append, ← List.append_assoc, String.ofList_append]

end Instant

namespace Value

theorem ofTimestamp_eq_ok_iff {text : String} {v : Value} :
    ofTimestamp text = .ok v ↔ ∃ i, Instant.ofString? text = some i ∧ v = .date i := by
  rw [ofTimestamp]
  cases Instant.ofString? text <;> simp [eq_comm]

theorem ofTimestamp_of_none {text : String} (h : Instant.ofString? text = none) :
    ofTimestamp text = .error (.invalidDate text) := by
  rw [ofTimestamp, h]

theorem render_date (i : Instant) :
    (Value.date i).render = .ok (.object [("$date", .string i.toTimestamp)]) := by
  rw [render, Instant.render]

/-- **What a timestamp is rendered to.** The value of any text that is read renders to an object
with one text, which ends in `Z`. In the years 0 to 9999 of UTC that text is read again, as the same
instant without what is below a millisecond, which renders to the same text again. Beyond these
years the text is not read. -/
theorem render_ofTimestamp {text : String} {v : Value} (h : ofTimestamp text = .ok v) :
    ∃ (i : Instant) (t : String), Instant.ofString? text = some i ∧ v = .date i ∧
      v.render = .ok (.object [("$date", .string t)]) ∧ (∃ front, t = front ++ "Z") ∧
      (i.InFourDigitYears → ofTimestamp t = .ok (.date i.toMilliseconds) ∧
        (Value.date i.toMilliseconds).render = .ok (.object [("$date", .string t)])) ∧
      (¬ i.InFourDigitYears → ofTimestamp t = .error (.invalidDate t)) := by
  obtain ⟨i, hread, rfl⟩ := ofTimestamp_eq_ok_iff.mp h
  refine ⟨i, i.toTimestamp, hread, rfl, render_date i, i.exists_toTimestamp_eq, ?_, ?_⟩
  · intro hyear
    have hagain : Instant.ofString? i.toTimestamp = some i.toMilliseconds := by
      rw [Instant.ofString?_toTimestamp]
      exact Instant.ofCharacters?_characters (Instant.leapsAtEndOfMinute_of_read hread) hyear
    refine ⟨ofTimestamp_eq_ok_iff.mpr ⟨_, hagain, rfl⟩, ?_⟩
    rw [render_date, Instant.toTimestamp_toMilliseconds]
  · intro hyear
    apply ofTimestamp_of_none
    rw [Instant.ofString?_toTimestamp]
    exact Instant.ofCharacters?_signed hyear

/-- A leap second at an offset, on New Year's Eve of UTC, with a fraction of eleven digits. -/
theorem render_ofTimestamp_leapSecond :
    let text := "2017-01-01 05:29:60.98765432109+05:30"
    let t := "2016-12-31T23:59:60.987Z"
    ofTimestamp text = .ok (.date ⟨1483228799, 1987654321⟩) ∧
      (Value.date ⟨1483228799, 1987654321⟩).render = .ok (.object [("$date", .string t)]) ∧
      ofTimestamp t = .ok (.date ⟨1483228799, 1987000000⟩) ∧
      (Value.date ⟨1483228799, 1987000000⟩).render = .ok (.object [("$date", .string t)]) := by
  intro text t
  have hread : Instant.ofString? text = some ⟨1483228799, 1987654321⟩ := by decide
  have hvalue : ofTimestamp text = .ok (.date ⟨1483228799, 1987654321⟩) :=
    ofTimestamp_eq_ok_iff.mpr ⟨_, hread, rfl⟩
  obtain ⟨i, t', hi, -, hrender, -, hagain, -⟩ := render_ofTimestamp hvalue
  obtain rfl := Option.some.inj (hread.symm.trans hi)
  have hwritten : (Instant.mk 1483228799 1987654321).toTimestamp = t := by rfl
  rw [render_date, hwritten] at hrender
  cases hrender
  obtain ⟨hagain, hrender'⟩ := hagain (by decide)
  rw [render_date, hwritten]
  exact ⟨hvalue, rfl, hagain, hrender'⟩

/-- **A timestamp that is not rendered to one**: the offset leads into the year 10000. -/
theorem render_ofTimestamp_beyondYears :
    let text := "9999-12-31T23:59:59-00:01"
    let t := "+10000-01-01T00:00:59.000Z"
    ∃ v, ofTimestamp text = .ok v ∧ v.render = .ok (.object [("$date", .string t)]) ∧
      ofTimestamp t = .error (.invalidDate t) := by
  intro text t
  have hread : Instant.ofString? text = some ⟨253402300859, 0⟩ := by decide
  have hwritten : (Instant.mk 253402300859 0).toTimestamp = t := by rfl
  refine ⟨.date ⟨253402300859, 0⟩, ofTimestamp_eq_ok_iff.mpr ⟨_, hread, rfl⟩, ?_, ?_⟩
  · rw [render_date, hwritten]
  · exact ofTimestamp_of_none (by decide)

end Value
end Aggregation
