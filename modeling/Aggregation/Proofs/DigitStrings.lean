import Aggregation.Proofs.DigitTexts
import Aggregation.Proofs.FixedForms

/-!
# Strings that are numbers

A nonempty string of ASCII digits becomes the number it spells, however long it is: an integer
of the signed range, of the unsigned range beyond it, and else the nearest float, infinite where
every finite one is too small. Zeros in front do not count. Any other string stays a string.

## Main definitions

* `Digits.Numeral` - the strings that are numbers.
* `Number.HoldsNatural` - what holds a natural number.

## Main results

* `Number.holdsNatural_ofDigits` - digits make what holds the number they spell.
* `Host.coerce_string_exact` - what a string is coerced to.
-/

namespace Aggregation

namespace Digits

/-- The string is not empty and holds ASCII digits only. -/
def Numeral (s : String) : Prop := s ≠ "" ∧ ∀ c ∈ s.toList, '0' ≤ c ∧ c ≤ '9'

theorem isNumeral_iff {s : String} : isNumeral s.toList = true ↔ Numeral s := by
  have hdigit : ∀ c : Char, c.isDigit = true ↔ '0' ≤ c ∧ c ≤ '9' := fun _ =>
    Char.isDigit_iff_toNat
  rw [isNumeral, Bool.and_eq_true, List.all_eq_true, Bool.not_eq_true', List.isEmpty_eq_false_iff,
    ne_eq, String.toList_eq_nil_iff]
  simp only [hdigit]
  rfl

/-- A string with zeros in front. -/
def withZeros (k : ℕ) (s : String) : String := String.ofList (List.replicate k '0' ++ s.toList)

theorem isNumeral_withZeros {s : String} (k : ℕ) (h : isNumeral s.toList = true) :
    isNumeral (withZeros k s).toList = true := by
  rw [isNumeral, Bool.and_eq_true] at h
  rw [withZeros, String.toList_ofList, isNumeral, List.all_append, h.2]
  cases k <;> simp_all

end Digits

namespace Number

/-- The number is held as an integer where 64 bits have room for it, and as the nearest float
where they have not. -/
structure HoldsNatural (number : Number) (n : ℕ) : Prop where
  signed : n < 2 ^ 63 → ∃ w : Int64, number = .integral w ∧ w.toInt = n
  unsigned : 2 ^ 63 ≤ n → n < 2 ^ 64 → ∃ w : UInt64, number = .unsigned w ∧ w.toNat = n
  nearest : 2 ^ 64 ≤ n → n < 2 ^ 1024 - 2 ^ 970 → ∃ x, number = .floating x ∧ x.IsNearest n 1
  infinite : 2 ^ 1024 - 2 ^ 970 ≤ n → number = .floating (.infinity false)

theorem ofDigits_of_lt_signed {digits : List Char} (h : Digits.value digits < 2 ^ 63) :
    ∃ w : Int64, ofDigits digits = .integral w ∧ w.toInt = Digits.value digits := by
  cases hsigned : Word.signed? (Digits.value digits) with
  | none => exact absurd (by omega) (Word.signed?_eq_none_iff.mp hsigned)
  | some w =>
    have hnumber : ofInt? (Digits.value digits) = some (.integral w) := by rw [ofInt?, hsigned]
    refine ⟨w, ?_, Word.toInt_of_signed? hsigned⟩
    simp only [ofDigits, hnumber, Option.getD_some]

theorem ofDigits_of_lt_unsigned {digits : List Char} (h : 2 ^ 63 ≤ Digits.value digits)
    (h' : Digits.value digits < 2 ^ 64) :
    ∃ w : UInt64, ofDigits digits = .unsigned w ∧ w.toNat = Digits.value digits := by
  have hsigned : Word.signed? (Digits.value digits) = none :=
    Word.signed?_eq_none_iff.mpr (by omega)
  cases hunsigned : Word.unsigned? (Digits.value digits) with
  | none => exact absurd (by omega) (Word.unsigned?_eq_none_iff.mp hunsigned)
  | some w =>
    have hnumber : ofInt? (Digits.value digits) = some (.unsigned w) := by
      rw [ofInt?, hsigned, hunsigned]
    refine ⟨w, ?_, by exact_mod_cast Word.toNat_of_unsigned? hunsigned⟩
    simp only [ofDigits, hnumber, Option.getD_some]

/-- **Digits make what holds the number they spell.** -/
theorem holdsNatural_ofDigits (digits : List Char) :
    (ofDigits digits).HoldsNatural (Digits.value digits) where
  signed := ofDigits_of_lt_signed
  unsigned := ofDigits_of_lt_unsigned
  nearest hlong hfinite := ⟨_, ofDigits_eq_floating hlong,
    Binary64.nearest_isNearest Nat.one_pos ((Binary64.ofNat_isFinite_iff _).mpr hfinite)⟩
  infinite hover := by
    have hlong : 2 ^ 64 ≤ Digits.value digits := Json.two_pow_64_le_overflow.trans hover
    have hfinite := mt (Binary64.ofNat_isFinite_iff (Digits.value digits)).mp (not_lt.mpr hover)
    rw [ofDigits_eq_floating hlong]
    exact congrArg _ ((Binary64.nearest_isFinite_or_eq_infinity false Nat.one_pos).resolve_left
      hfinite)

end Number

namespace Host

theorem coerce_string (s : String) : (Host.string s).coerce = .typed (.ofString s) := by
  rw [coerce]

theorem coerce_numeral {s : String} (h : Digits.isNumeral s.toList = true) :
    (Host.string s).coerce = .typed (.number (.ofDigits s.toList)) := by
  rw [coerce_string, Value.ofString, if_pos h]

/-- **What a string is coerced to.** A string of digits becomes what holds the number it spells,
with or without zeros in front. Any other string, be it empty or with a sign, a point, a blank or
a digit of another script, stays the string it is. -/
theorem coerce_string_exact (s : String) :
    (Digits.Numeral s → ∃ number, (Host.string s).coerce = .typed (.number number) ∧
      number.HoldsNatural (Nat.ofDigitChars 10 s.toList 0) ∧
      ∀ k, (Host.string (Digits.withZeros k s)).coerce = .typed (.number number)) ∧
    (¬ Digits.Numeral s → (Host.string s).coerce = .typed (.string s)) := by
  rw [← Digits.isNumeral_iff]
  constructor
  · intro h
    refine ⟨_, coerce_numeral h, ?_, fun k => ?_⟩
    · rw [← Digits.value_eq_ofDigitChars]
      exact Number.holdsNatural_ofDigits s.toList
    · rw [coerce_numeral (Digits.isNumeral_withZeros k h), Digits.withZeros,
        String.toList_ofList, Number.ofDigits, Number.ofDigits, Digits.value_zeros_append]
  · intro h
    rw [coerce_string, Value.ofString, if_neg h]

theorem coerce_string_exact_boundaries :
    (Digits.Numeral "09223372036854775808" ∧ ∃ w : UInt64,
      (Host.string "09223372036854775808").coerce = .typed (.number (.unsigned w)) ∧
        w.toNat = 2 ^ 63) ∧
    (Digits.Numeral (Json.powerOfTen 309) ∧
      (Host.string (Json.powerOfTen 309)).coerce =
        .typed (.number (.floating (.infinity false)))) ∧
    (¬ Digits.Numeral "42\n" ∧ (Host.string "42\n").coerce = .typed (.string "42\n")) := by
  refine ⟨?_, ?_, ?_⟩
  · have hdigits : Digits.Numeral "09223372036854775808" := Digits.isNumeral_iff.mp (by decide)
    obtain ⟨number, hcoerce, hholds, -⟩ := (coerce_string_exact _).1 hdigits
    have hvalue : Nat.ofDigitChars 10 "09223372036854775808".toList 0 = 2 ^ 63 := by
      decide +kernel
    rw [hvalue] at hholds
    obtain ⟨w, rfl, hw⟩ := hholds.unsigned (by decide) (by decide)
    exact ⟨hdigits, w, hcoerce, hw⟩
  · obtain ⟨hnumeral, hvalue⟩ := Json.spells_powerOfTen 309
    have hdigits := Digits.isNumeral_iff.mp hnumeral
    obtain ⟨number, hcoerce, hholds, -⟩ := (coerce_string_exact _).1 hdigits
    rw [← Digits.value_eq_ofDigitChars, hvalue] at hholds
    refine ⟨hdigits, ?_⟩
    rw [hcoerce, hholds.infinite Json.overflow_le_ten_pow]
  · have hdigits : ¬ Digits.Numeral "42\n" := mt Digits.isNumeral_iff.mpr (by decide)
    exact ⟨hdigits, (coerce_string_exact _).2 hdigits⟩

end Host
end Aggregation
