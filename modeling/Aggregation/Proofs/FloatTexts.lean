import Aggregation.Proofs.DigitTexts
import Aggregation.Proofs.Faults

/-!
# Decimals that are written are read

A decimal with a fraction is written with a point, with an exponent, or with both. Wherever the
point stands, the reader collects the same digits, as long as they fit 64 bits, and counts the
same number of places. So it scales the digits of the decimal by its exponent.

## Main results

* `Json.readNumeral_point`, `Json.readNumeral_exponent` - a numeral with a point or an exponent.
* `Json.readNumeral_decimalText` - a decimal with a fraction.
-/

namespace Aggregation

namespace Digits

variable {digits more : List Char}

theorem value_append (digits more : List Char) :
    value (digits ++ more) = valueFrom (value digits) more := by
  rw [← valueFrom_zero, valueFrom_append, valueFrom_zero]

theorem value_le_value_append (digits more : List Char) :
    value digits ≤ value (digits ++ more) := by
  rw [value_append]
  exact le_valueFrom _ _

end Digits

namespace Json

open Digits (value)

variable {negative : Bool} {significand : ℕ} {exponent : ℤ} {whole places rest : List Char}

/-- What reading a float ends with: the significand is scaled, and the sign is put back. -/
def finishFloat (negative : Bool) (significand : ℕ) (exponent : ℤ) (rest : List Char) :
    Except SyntaxError (Json × List Char) :=
  scaled significand exponent >>= fun x => .ok (.float (x.withSign negative), rest)

/-! ## Exponents -/

theorem readExponent_none (hrest : EndsNumeral rest) :
    readExponent negative significand exponent rest =
      finishFloat negative significand exponent rest := by
  cases rest with
  | nil =>
    rw [readExponent]
    dsimp only
    rw [add_zero]
    rfl
  | cons c rest =>
    obtain ⟨-, -, hlower, hupper⟩ := hrest c rfl
    unfold readExponent
    dsimp only
    rw [if_neg (by simp [hlower, hupper]), add_zero]
    rfl

/-- The digits of an exponent behind its sign. -/
theorem readExponent_digits (negative down : Bool) (significand n : ℕ) (exponent : ℤ)
    (hrest : EndsNumeral rest) :
    readExponent negative significand exponent
      ('e' :: (if down then '-' else '+') :: (Digits.text n ++ rest)) =
        finishFloat negative significand (exponent + if down then -(n : ℤ) else n) rest := by
  have hdigits : ∀ c ∈ Digits.text n, c.isDigit = true := fun c => Digits.isDigit_of_mem_text
  have htake := takeWhile_digits hdigits hrest.endsDigits
  have hdrop := dropWhile_digits hdigits hrest.endsDigits
  cases down <;>
    simp [readExponent, htake, hdrop, Digits.text_ne_nil, Digits.value_text, finishFloat] <;> rfl

/-- An exponent as it is written. -/
theorem readExponent_text (negative : Bool) (significand : ℕ) (exponent written : ℤ)
    (hrest : EndsNumeral rest) :
    readExponent negative significand exponent ('e' :: (if written < 0 then '-' else '+') ::
      (Digits.text written.natAbs ++ rest)) =
        finishFloat negative significand (exponent + written) rest := by
  have hread := readExponent_digits negative (decide (written < 0)) significand written.natAbs
    exponent hrest
  have hwritten : (if written < 0 then -(written.natAbs : ℤ) else written.natAbs) = written := by
    split <;> omega
  simpa only [decide_eq_true_eq, hwritten] using hread

/-! ## Points -/

/-- The digits in front of a point or an exponent: there are some, and a zero stands alone. -/
structure IsWhole (whole : List Char) : Prop where
  digits : ∀ c ∈ whole, c.isDigit = true
  ne_nil : whole ≠ []
  zero_alone : ∀ c more, whole ≠ '0' :: c :: more
  fits : value whole < 2 ^ 64

/-- The digits around a point are collected; those behind it are places. -/
theorem readNumeral_point (negative : Bool) (hwhole : IsWhole whole)
    (hplaces : ∀ c ∈ places, c.isDigit = true) (hne : places ≠ [])
    (hfits : value (whole ++ places) < 2 ^ 64) (hrest : EndsDigits rest) :
    readNumeral negative (whole ++ '.' :: (places ++ rest)) =
      readExponent negative (value (whole ++ places)) (-places.length) rest := by
  have hpoint : EndsDigits ('.' :: (places ++ rest)) := by simp [EndsDigits]
  have habsorb : absorb 0 whole = (value whole, []) := absorb_eq hwhole.fits
  have hvalue := Digits.value_append whole places
  have habsorb' : absorb (value whole) places = (value (whole ++ places), []) := by
    rw [hvalue] at hfits ⊢
    exact absorb_eq hfits
  rw [readNumeral, takeWhile_digits hwhole.digits hpoint, dropWhile_digits hwhole.digits hpoint]
  dsimp only
  split
  · exact absurd rfl hwhole.ne_nil
  · exact absurd rfl (hwhole.zero_alone _ _)
  · rw [habsorb]
    simp only [takeWhile_digits hplaces hrest, dropWhile_digits hplaces hrest, habsorb']
    rw [if_neg (by simpa using hne)]
    simp

/-- An exponent may follow the digits without a point. -/
theorem readNumeral_exponent (negative : Bool) (hwhole : IsWhole whole) (text : List Char) :
    readNumeral negative (whole ++ 'e' :: text) =
      readExponent negative (value whole) 0 ('e' :: text) := by
  have hend : EndsDigits ('e' :: text) := by simp [EndsDigits]
  have habsorb : absorb 0 whole = (value whole, []) := absorb_eq hwhole.fits
  rw [readNumeral, takeWhile_digits hwhole.digits hend, dropWhile_digits hwhole.digits hend]
  dsimp only
  split
  · exact absurd rfl hwhole.ne_nil
  · exact absurd rfl (hwhole.zero_alone _ _)
  · rw [habsorb]
    rfl

/-! ## Decimals -/

variable {d : ScientificDecimal}

theorem isWhole_zero : IsWhole ['0'] where
  digits c hc := by
    obtain rfl := List.mem_singleton.mp hc
    rfl
  ne_nil := List.cons_ne_nil _ _
  zero_alone := by simp
  fits := Nat.two_pow_pos 64

/-- The first digits of a positive number can stand in front of a point. -/
theorem isWhole_take {n : ℕ} (hn : n ≠ 0) (hfits : n < 2 ^ 64) {count : ℕ} (hcount : 0 < count) :
    IsWhole ((Digits.text n).take count) where
  digits c hc := Digits.isDigit_of_mem_text (List.mem_of_mem_take hc)
  ne_nil := by
    rw [ne_eq, List.take_eq_nil_iff, not_or]
    exact ⟨hcount.ne', Digits.text_ne_nil n⟩
  zero_alone c more h := by
    apply Digits.head?_text hn
    rw [← List.take_append_drop count (Digits.text n), h]
    rfl
  fits := by
    refine lt_of_le_of_lt (Digits.value_le_value_append _ ((Digits.text n).drop count)) ?_
    rw [List.take_append_drop, Digits.value_text]
    exact hfits

theorem isDigit_of_mem_drop {n count : ℕ} {c : Char} (h : c ∈ (Digits.text n).drop count) :
    c.isDigit = true :=
  Digits.isDigit_of_mem_text (List.mem_of_mem_drop h)

/-- The digits around a point within them, or behind zeros. -/
theorem readNumeral_positionalText (negative : Bool) (hpos : d.digits ≠ 0)
    (hfits : d.digits < 2 ^ 64) (hfraction : d.exponent < 0) (hrest : EndsNumeral rest) :
    readNumeral negative (positionalText (Digits.text d.digits)
      (d.exponent + (Digits.text d.digits).length - 1) ++ rest) =
        finishFloat negative d.digits d.exponent rest := by
  have hlength := List.length_pos_of_ne_nil (Digits.text_ne_nil d.digits)
  obtain ⟨exponent, hexponent⟩ :
      ∃ exponent, d.exponent + (Digits.text d.digits).length - 1 = exponent := ⟨_, rfl⟩
  rw [positionalText, hexponent]
  split
  · rename_i hbelow
    have hzeros : ∀ c ∈ List.replicate (-exponent - 1).toNat '0' ++ Digits.text d.digits,
        c.isDigit = true := by
      intro c hc
      rcases List.mem_append.mp hc with hc | hc
      · obtain ⟨-, rfl⟩ := List.mem_replicate.mp hc
        rfl
      · exact Digits.isDigit_of_mem_text hc
    have hvalue : value (['0'] ++ (List.replicate (-exponent - 1).toNat '0' ++
        Digits.text d.digits)) = d.digits := by
      rw [show ['0'] = List.replicate 1 '0' from rfl, Digits.value_zeros_append,
        Digits.value_zeros_append, Digits.value_text]
    have htext : '0' :: '.' :: List.replicate (-exponent - 1).toNat '0' ++ Digits.text d.digits ++
        rest = ['0'] ++ '.' :: (List.replicate (-exponent - 1).toNat '0' ++
          Digits.text d.digits ++ rest) := rfl
    rw [htext, readNumeral_point negative isWhole_zero hzeros _ _ hrest.endsDigits, hvalue,
      readExponent_none hrest, List.length_append, List.length_replicate]
    · congr 1
      omega
    · exact List.append_ne_nil_of_right_ne_nil _ (Digits.text_ne_nil _)
    · rw [hvalue]
      exact hfits
  · rename_i habove
    have hwhole := isWhole_take hpos hfits exponent.toNat.succ_pos
    have hsplit := List.take_append_drop (exponent.toNat + 1) (Digits.text d.digits)
    dsimp only
    rw [if_neg (by omega), List.append_assoc, List.cons_append,
      readNumeral_point negative hwhole (fun c => isDigit_of_mem_drop) _ _ hrest.endsDigits,
      hsplit, Digits.value_text, readExponent_none hrest, List.length_drop]
    · congr 1
      omega
    · rw [ne_eq, List.drop_eq_nil_iff]
      omega
    · rw [hsplit, Digits.value_text]
      exact hfits

/-- One digit, or one digit and a point, in front of an exponent. -/
theorem readNumeral_exponentText (negative : Bool) (hpos : d.digits ≠ 0)
    (hfits : d.digits < 2 ^ 64) (hrest : EndsNumeral rest) :
    readNumeral negative (exponentText (Digits.text d.digits)
      (d.exponent + (Digits.text d.digits).length - 1) ++ rest) =
        finishFloat negative d.digits d.exponent rest := by
  have hlength := List.length_pos_of_ne_nil (Digits.text_ne_nil d.digits)
  have hwhole := isWhole_take hpos hfits Nat.one_pos
  have hsplit := List.take_append_drop 1 (Digits.text d.digits)
  rw [exponentText, List.append_assoc, List.append_assoc, List.cons_append, List.cons_append]
  split
  · rename_i hone
    have htake : (Digits.text d.digits).take 1 = Digits.text d.digits :=
      List.take_of_length_le hone
    rw [htake] at hwhole ⊢
    rw [List.nil_append, readNumeral_exponent negative hwhole, readExponent_text _ _ _ _ hrest,
      Digits.value_text]
    congr 1
    omega
  · rename_i hmore
    rw [List.cons_append, readNumeral_point negative hwhole (fun c => isDigit_of_mem_drop),
      hsplit, Digits.value_text, readExponent_text _ _ _ _ hrest, List.length_drop]
    · congr 1
      omega
    · rw [ne_eq, List.drop_eq_nil_iff]
      exact hmore
    · rw [hsplit, Digits.value_text]
      exact hfits
    · simp [EndsDigits]

/-- A decimal is written with a digit in front. -/
theorem exists_decimalText_cons (d : ScientificDecimal) :
    ∃ c text, decimalText d = c :: text ∧ c.isDigit = true := by
  obtain ⟨c, digits, hdigits, hc⟩ := Digits.exists_text_cons d.digits
  rw [decimalText, hdigits]
  split
  · rw [positionalText]
    split
    · exact ⟨'0', _, rfl, rfl⟩
    · dsimp only
      split
      · exact ⟨c, _, rfl, hc⟩
      · exact ⟨c, _, rfl, hc⟩
  · exact ⟨c, _, rfl, hc⟩

/-- **A decimal with a fraction is read** as its digits, scaled by its exponent. -/
theorem readNumeral_decimalText (negative : Bool) (hpos : d.digits ≠ 0)
    (hfits : d.digits < 2 ^ 64) (hfraction : d.exponent < 0) (hrest : EndsNumeral rest) :
    readNumeral negative (decimalText d ++ rest) =
      finishFloat negative d.digits d.exponent rest := by
  rw [decimalText]
  split
  · exact readNumeral_positionalText negative hpos hfits hfraction hrest
  · exact readNumeral_exponentText negative hpos hfits hrest

end Json
end Aggregation
