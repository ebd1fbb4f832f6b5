import Aggregation.Json.Numeral
import Mathlib.Algebra.Order.Ring.Nat
import Mathlib.Tactic.Ring

/-!
# Digits that are written are read

The digits of a natural number spell it, without a leading zero. The reader takes a run of
digits up to the first character that is none, and as long as the number they spell has 64 bits,
none is left over.

## Main results

* `Digits.value_text` - the digits of a number spell it.
* `Json.absorb_eq` - digits that fit 64 bits are all taken.
* `Json.readNumeral_text` - an integer in plain digits is read.
-/

namespace Aggregation

namespace Digits

variable {n : ℕ} {digits : List Char}

/-- A significand with digits appended to it. -/
def valueFrom (significand : ℕ) (digits : List Char) : ℕ :=
  digits.foldl (fun n c => n * 10 + digitValue c) significand

@[simp] theorem valueFrom_nil (significand : ℕ) : valueFrom significand [] = significand := rfl

@[simp] theorem valueFrom_cons (significand : ℕ) (c : Char) (digits : List Char) :
    valueFrom significand (c :: digits) = valueFrom (significand * 10 + digitValue c) digits :=
  List.foldl_cons ..

theorem valueFrom_append (significand : ℕ) (digits more : List Char) :
    valueFrom significand (digits ++ more) = valueFrom (valueFrom significand digits) more :=
  List.foldl_append

theorem valueFrom_zero (digits : List Char) : valueFrom 0 digits = value digits := rfl

theorem le_valueFrom (significand : ℕ) (digits : List Char) :
    significand ≤ valueFrom significand digits := by
  induction digits generalizing significand with
  | nil => exact Nat.le_refl _
  | cons c digits ih =>
    rw [valueFrom_cons]
    exact le_trans (by omega) (ih _)

/-- Leading zeros leave the number as it is. -/
theorem value_zeros_append (count : ℕ) (digits : List Char) :
    value (List.replicate count '0' ++ digits) = value digits := by
  induction count with
  | zero => simp
  | succ count ih =>
    rw [List.replicate_succ, List.cons_append, ← valueFrom_zero, valueFrom_cons]
    rw [← valueFrom_zero] at ih
    simpa [digitValue] using ih

/-- Each zero behind digits makes ten times the number. -/
theorem value_append_zeros (digits : List Char) (k : ℕ) :
    value (digits ++ List.replicate k '0') = value digits * 10 ^ k := by
  induction k with
  | zero => simp
  | succ k ih =>
    rw [value] at ih
    rw [List.replicate_succ', ← List.append_assoc, value, List.foldl_append, ih, pow_succ]
    simp [digitValue, mul_assoc]

theorem value_eq_ofDigitChars (digits : List Char) :
    value digits = Nat.ofDigitChars 10 digits 0 := by
  simp only [value, digitValue, Nat.ofDigitChars, mul_comm 10]
  rfl

/-- **The digits of a number spell it.** -/
theorem value_text (n : ℕ) : value (text n) = n := by
  rw [value_eq_ofDigitChars]
  exact Nat.ofDigitChars_toDigits (by decide) (by decide)

theorem isDigit_of_mem_text {c : Char} (h : c ∈ text n) : c.isDigit = true :=
  Nat.isDigit_of_mem_toDigits (by decide) (by decide) h

theorem text_ne_nil (n : ℕ) : text n ≠ [] :=
  List.ne_nil_of_length_pos Nat.length_toDigits_pos

theorem exists_text_cons (n : ℕ) : ∃ c digits, text n = c :: digits ∧ c.isDigit = true := by
  obtain ⟨c, digits, hdigits⟩ := List.exists_cons_of_ne_nil (text_ne_nil n)
  exact ⟨c, digits, hdigits, isDigit_of_mem_text (hdigits ▸ List.mem_cons_self)⟩

/-- Only zero is written with a zero in front. -/
theorem head?_text (h : n ≠ 0) : (text n).head? ≠ some '0' := by
  induction n using Nat.strong_induction_on with
  | _ n ih =>
    rcases Nat.lt_or_ge n 10 with hlt | hge
    · rw [text, Nat.toDigits_of_lt_base hlt]
      have hdigit : ∀ d : Fin 10, d.val ≠ 0 → [Nat.digitChar d].head? ≠ some '0' := by decide
      exact hdigit ⟨n, hlt⟩ h
    · have hrest := ih (n / 10) (by omega) (by omega)
      rw [text] at hrest ⊢
      rw [Nat.toDigits_of_base_le (by decide) hge, List.head?_append]
      obtain ⟨c, digits, hdigits, -⟩ := exists_text_cons (n / 10)
      rw [text] at hdigits
      rw [hdigits] at hrest ⊢
      exact hrest

end Digits

namespace Json

variable {text rest digits : List Char} {significand : ℕ}

open Digits (valueFrom)

/-! ## Runs of digits -/

/-- The text goes on with something that is no part of a numeral. -/
def EndsNumeral (rest : List Char) : Prop :=
  ∀ c ∈ rest.head?, c.isDigit = false ∧ c ≠ '.' ∧ c ≠ 'e' ∧ c ≠ 'E'

theorem endsNumeral_nil : EndsNumeral [] := by simp [EndsNumeral]

/-- The text goes on with something other than a digit. -/
def EndsDigits (rest : List Char) : Prop := ∀ c ∈ rest.head?, c.isDigit = false

theorem EndsNumeral.endsDigits (h : EndsNumeral rest) : EndsDigits rest :=
  fun c hc => (h c hc).1

theorem takeWhile_digits (hdigits : ∀ c ∈ digits, c.isDigit = true) (hrest : EndsDigits rest) :
    (digits ++ rest).takeWhile Char.isDigit = digits := by
  rw [List.takeWhile_append_of_pos hdigits]
  cases rest with
  | nil => simp
  | cons c rest => simp [hrest c rfl]

theorem dropWhile_digits (hdigits : ∀ c ∈ digits, c.isDigit = true) (hrest : EndsDigits rest) :
    (digits ++ rest).dropWhile Char.isDigit = rest := by
  rw [List.dropWhile_append_of_pos hdigits]
  cases rest with
  | nil => simp
  | cons c rest => simp [hrest c rfl]

/-- Digits are all taken while the number they make has 64 bits. -/
theorem absorb_eq (h : valueFrom significand digits < 2 ^ 64) :
    absorb significand digits = (valueFrom significand digits, []) := by
  induction digits generalizing significand with
  | nil => rfl
  | cons c digits ih =>
    rw [Digits.valueFrom_cons] at h ⊢
    have hnext := (Digits.le_valueFrom _ digits).trans_lt h
    rw [absorb, if_pos (by omega), ih h]

/-! ## Integers -/

/-- **An integer in plain digits is read**, up to the first character that is no part of it. -/
theorem readNumeral_text (negative : Bool) {n : ℕ} (hn : n < 2 ^ 64) (hrest : EndsNumeral rest) :
    readNumeral negative (Digits.text n ++ rest) = .ok (integerNumeral negative n, rest) := by
  have hdigits : ∀ c ∈ Digits.text n, c.isDigit = true := fun c => Digits.isDigit_of_mem_text
  have habsorb : absorb 0 (Digits.text n) = (n, []) := by
    rw [absorb_eq] <;> rw [Digits.valueFrom_zero, Digits.value_text]
    exact hn
  rw [readNumeral, takeWhile_digits hdigits hrest.endsDigits,
    dropWhile_digits hdigits hrest.endsDigits]
  dsimp only
  split
  · exact absurd ‹_› (Digits.text_ne_nil n)
  · rename_i c more hzero
    -- A zero in front of other digits is the number zero.
    by_cases h0 : n = 0
    · subst h0
      cases hzero
    · exact absurd (by rw [hzero]; rfl) (Digits.head?_text h0)
  · rw [habsorb]
    dsimp only
    split
    · exact absurd rfl (hrest _ rfl).2.1
    · rename_i c rest' _
      rw [if_pos ⟨rfl, (hrest c rfl).2.2⟩]
    · rfl

/-- So is a signed one, unless it is beyond 64 bits. -/
theorem integerNumeral_natAbs {n : ℤ} (h : -2 ^ 63 ≤ n) :
    integerNumeral (decide (n < 0)) n.natAbs = .integer n := by
  rw [integerNumeral]
  rcases lt_or_ge n 0 with hneg | hpos
  · rw [decide_eq_true hneg, if_neg (by decide), if_neg (by omega)]
    congr 1
    omega
  · rw [decide_eq_false (not_lt.mpr hpos), if_pos (by decide)]
    congr 1
    omega

end Json
end Aggregation
