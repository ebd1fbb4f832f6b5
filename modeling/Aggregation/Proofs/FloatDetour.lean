import Aggregation.Command.Execute
import Aggregation.Json.Printer
import Aggregation.Proofs.FloatTexts
import Aggregation.Proofs.NullFaults
import Aggregation.Proofs.ReadLayouts
import Aggregation.Proofs.ScaledDecimals

/-!
# Floats through their text

A float with a fraction is written as its shortest decimal, which rounds to it. The reader
collects all digits of that decimal, but rounds more than once. So the `coerce` command makes a
number of the text, which is the float itself if the digits and the power of ten that divides
them are floats, and may be a neighbour of it otherwise.

## Main results

* `Json.read_float` - what the text of a float is read as.
* `Command.coerceInput_float` - what the command makes of the text.
* `Command.coerceInput_loses_fraction` - a float that the command makes an integer of.
-/

namespace Aggregation

open Binary64 (unitsPerOne)

variable {x : Binary64}

namespace Json

/-- The text of a float with a fraction. -/
theorem floatText_eq (hx : x.isFinite = true) (hfraction : x.units % unitsPerOne ≠ 0) :
    floatText x = if x.negative then '-' :: decimalText x.shortest else decimalText x.shortest := by
  have hzero : x.isZero = false := by
    rw [Bool.eq_false_iff]
    intro hzero
    rw [Binary64.units_eq_zero_of_isZero hzero] at hfraction
    exact hfraction (Nat.zero_mod _)
  rw [floatText, hx, hzero]
  rfl

/-- **The text of a float with a fraction is read** as the quotient of its shortest decimal. -/
theorem read_float (hx : x.isFinite = true) (hfraction : x.units % unitsPerOne ≠ 0) :
    read (Json.float x).compact = .ok (.float x.reread) := by
  have hpos := Binary64.units_pos_of_fraction hfraction
  have hscaled := Binary64.scaled_eq_quotient (Binary64.shortest_digits_pos hpos)
    (Binary64.shortest_digits_lt hpos)
    (show -616 ≤ x.shortest.exponent by have := Binary64.le_shortest_exponent hpos; omega)
    (Binary64.shortest_exponent_neg hx hfraction)
  have hnumeral := readNumeral_decimalText x.negative (Binary64.shortest_digits_pos hpos).ne'
    (Binary64.shortest_digits_lt hpos) (Binary64.shortest_exponent_neg hx hfraction)
    endsNumeral_nil
  rw [List.append_nil, finishFloat, hscaled, Fault.ok_bind] at hnumeral
  have hvalue : ∀ bound levels,
      readValue bound levels (floatText x) = .ok (.float x.reread, []) := by
    intro bound levels
    rw [floatText_eq hx hfraction]
    split
    · rename_i hnegative
      rw [readValue_minus, ← hnegative, hnumeral]
      rfl
    · rename_i hpositive
      obtain ⟨c, text, htext, hc⟩ := exists_decimalText_cons x.shortest
      rw [Bool.not_eq_true] at hpositive
      rw [htext, readValue_digit _ _ _ hc, ← htext, ← hpositive, hnumeral]
      rfl
  rw [read, compact, compactText, String.toList_ofList, hvalue, Fault.ok_bind]
  rfl

end Json

namespace Command

/-- The command makes a number of a float. -/
theorem coerceInput_of_read {text : String} (h : Json.read text = .ok (.float x)) :
    coerceInput (some text) = .ok ⟨some .number, (Number.ofBinary64 x).render⟩ := by
  simp only [coerceInput, readJson, h, Except.mapError, Fault.ok_bind, Host.ofJson, Host.coerce,
    Coerced.render_typed, Value.render_number]
  rfl

/-- A finite float with a fraction is written as itself. -/
theorem render_ofBinary64 (hx : x.isFinite = true) (hfraction : x.units % unitsPerOne ≠ 0) :
    (Number.ofBinary64 x).render = .float x := by
  have hnone : ¬ ∃ n, x.IsInteger n ∧ Word.Holds n := fun ⟨n, hinteger, _⟩ =>
    hfraction (Binary64.exists_isInteger_iff.mp ⟨n, hinteger⟩).2
  rw [Number.ofBinary64_eq_floating hnone, Number.render, if_pos hx]

/-- **Floats through their text.** The text of a finite float with a fraction is coerced to a
number. Its shortest decimal rounds to the float; the value is that decimal as the reader rounds
it, finite and less than seven units in the last place away from the float. If the digits and the
power of ten are floats themselves, it is the float, which has the same text again. -/
theorem coerceInput_float (hx : x.isFinite = true) (hfraction : x.units % unitsPerOne ≠ 0) :
    coerceInput (some (Json.float x).compact) =
        .ok ⟨some .number, (Number.ofBinary64 x.reread).render⟩ ∧
      Binary64.nearest x.negative x.shortest.digits (tenTo x.decimalPlaces) = x ∧
      x.reread.isFinite = true ∧ x.reread.negative = x.negative ∧
      |(x.reread.units : ℤ) - x.units| < 7 * 2 ^ x.shift ∧
      ((Binary64.ofNat x.shortest.digits).IsInteger x.shortest.digits →
        (Binary64.powerOfTen x.decimalPlaces).IsInteger (tenTo x.decimalPlaces) →
          coerceInput (some (Json.float x).compact) = .ok ⟨some .number, .float x⟩) := by
  have hpos := Binary64.units_pos_of_fraction hfraction
  have hresult := coerceInput_of_read (Json.read_float hx hfraction)
  refine ⟨hresult, Binary64.nearest_shortest hx hfraction x.negative,
    Binary64.reread_isFinite hpos, rfl, Binary64.abs_reread_sub_lt hx hfraction, ?_⟩
  intro hdigits hpower
  rw [hresult, Binary64.reread_eq hx hfraction hdigits hpower, render_ofBinary64 hx hfraction]

/-- The float `-1234.5678`. -/
def fourPlaces : Binary64 := ⟨true, ⟨1033, by decide⟩, ⟨926086978140845, by decide⟩⟩

theorem coerceInput_float_fourPlaces :
    fourPlaces.isFinite = true ∧ fourPlaces.units % unitsPerOne ≠ 0 ∧
      (Binary64.ofNat fourPlaces.shortest.digits).IsInteger fourPlaces.shortest.digits ∧
      (Binary64.powerOfTen fourPlaces.decimalPlaces).IsInteger (tenTo fourPlaces.decimalPlaces) ∧
      (Json.float fourPlaces).compact = "-1234.5678" ∧
      coerceInput (some "-1234.5678") = .ok ⟨some .number, .float fourPlaces⟩ := by
  have hfinite : fourPlaces.isFinite = true := by decide
  have hfraction : fourPlaces.units % unitsPerOne ≠ 0 := by decide +kernel
  have hdigits : (Binary64.ofNat fourPlaces.shortest.digits).IsInteger
      fourPlaces.shortest.digits := Binary64.isInteger_ofNat_of_le (by decide +kernel)
  have hpower : (Binary64.powerOfTen fourPlaces.decimalPlaces).IsInteger
      (tenTo fourPlaces.decimalPlaces) := Binary64.isInteger_powerOfTen (by decide +kernel)
  have htext : (Json.float fourPlaces).compact = "-1234.5678" := by decide +kernel
  obtain ⟨-, -, -, -, -, hsame⟩ := coerceInput_float hfinite hfraction
  rw [htext] at hsame
  exact ⟨hfinite, hfraction, hdigits, hpower, htext, hsame hdigits hpower⟩

/-- The float `2 ^ 52 - 1 / 2`: its digits are no float. -/
def belowTwoTo52 : Binary64 := ⟨false, ⟨1074, by decide⟩, ⟨4503599627370495, by decide⟩⟩

/-- The text of this float is coerced to an integer: its fraction is lost. -/
theorem coerceInput_loses_fraction :
    belowTwoTo52.isFinite = true ∧ belowTwoTo52.units % unitsPerOne ≠ 0 ∧
      (Json.float belowTwoTo52).compact = "4503599627370495.5" ∧
      coerceInput (some "4503599627370495.5") =
        .ok ⟨some .number, .integer 4503599627370495⟩ ∧
      coerceInput (some (Json.float belowTwoTo52).compact) ≠
        .ok ⟨some .number, .float belowTwoTo52⟩ := by
  have hfinite : belowTwoTo52.isFinite = true := by decide
  have hfraction : belowTwoTo52.units % unitsPerOne ≠ 0 := by decide +kernel
  have htext : (Json.float belowTwoTo52).compact = "4503599627370495.5" := by decide +kernel
  have hinteger : belowTwoTo52.reread.IsInteger 4503599627370495 :=
    Binary64.toInt?_eq_some_iff.mp (by decide +kernel)
  have hresult := coerceInput_of_read (Json.read_float hfinite hfraction)
  rw [Number.render_ofBinary64_of_integer hinteger (by decide)] at hresult
  refine ⟨hfinite, hfraction, htext, htext ▸ hresult, ?_⟩
  rw [hresult]
  intro h
  cases h

end Command
end Aggregation
