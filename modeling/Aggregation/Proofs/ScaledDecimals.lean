import Aggregation.Proofs.RoundingErrors

/-!
# Decimals as the reader rounds them

The reader rounds the digits of a decimal, divides by a rounded power of ten, and rounds the
quotient; beyond `308` places it divides twice. When the digits and the power are floats
themselves, only the quotient is rounded, and the shortest decimal of a number gives the number.
Else the errors add up, though to less than seven units in the last place of the number.

## Main definitions

* `Binary64.quotient` - digits with a number of places, as the reader rounds them.
* `Binary64.reread` - what the shortest decimal of a number is read as.

## Main results

* `Binary64.scaled_eq_quotient` - scaling gives the quotient.
* `Binary64.reread_eq` - the numbers that are read as themselves.
* `Binary64.abs_reread_sub_lt` - how far any other number is off.
-/

namespace Aggregation.Binary64

variable {x : Binary64} {digits places : ℕ}

/-- Digits with a number of places, as the reader rounds them. -/
def quotient (digits places : ℕ) : Binary64 :=
  if places ≤ 308 then ofNat digits / powerOfTen places
  else ofNat digits / powerOfTen 308 / powerOfTen (places - 308)

/-- The number that the shortest decimal of a number is read as. -/
def reread (x : Binary64) : Binary64 :=
  (quotient x.shortest.digits x.decimalPlaces).withSign x.negative

/-! ## Scaling -/

/-- No positive number of 64 bits is rounded to zero. -/
theorem isZero_ofNat (hpos : 0 < digits) (hfits : digits < 2 ^ 64) :
    (ofNat digits).isZero = false := by
  rw [Bool.eq_false_iff]
  intro hzero
  have herror := abs_ofNat_sub_le hpos (ofNat_small hfits).1
  have hdigits : (0 : ℚ) < digits := by exact_mod_cast hpos
  rw [magnitude, units_eq_zero_of_isZero hzero, Nat.cast_zero, zero_div, zero_sub, abs_neg,
    abs_of_pos hdigits, roundoff] at herror
  linarith

/-- **Scaling downwards gives the quotient.** -/
theorem scaled_eq_quotient {exponent : ℤ} (hpos : 0 < digits) (hfits : digits < 2 ^ 64)
    (hlow : -616 ≤ exponent) (hneg : exponent < 0) :
    Json.scaled digits exponent = .ok (quotient digits (-exponent).toNat) := by
  rw [Json.scaled, quotient]
  dsimp only
  rw [if_neg (by omega)]
  split
  · rename_i hnear
    rw [show ((-exponent).toNat - 1) / 308 = 0 by omega, Json.divideDown]
    rfl
  · rename_i hfar
    rw [show ((-exponent).toNat - 1) / 308 = 1 by omega, Json.divideDown, isZero_ofNat hpos hfits,
      if_neg (by decide), Json.divideDown]

/-- The quotient is finite, and no larger than the digits can be. -/
theorem quotient_small (hfits : digits < 2 ^ 64) (hplaces : places ≤ 616) :
    (quotient digits places).Small := by
  have hdigits := ofNat_small hfits
  rw [quotient]
  split
  · exact hdigits.div (powerOfTen_eq ‹_›).2
  · exact (hdigits.div (powerOfTen_eq (Nat.le_refl 308)).2).div (powerOfTen_eq (by omega)).2

/-! ## The error of a quotient -/

/-- **The error of a quotient**, whether it takes one division or two. -/
theorem abs_quotient_sub_le (hpos : 0 < digits) (hfits : digits < 2 ^ 64)
    (hplaces : places ≤ 616) :
    |(quotient digits places).magnitude - digits / 10 ^ places| ≤
      11 / 2 * roundoff * (digits / 10 ^ places) + 6 / 5 * halfUnit := by
  have hdigits := ofNat_small hfits
  have hround : |(ofNat digits).magnitude - digits| ≤ roundoff * digits + 0 := by
    rw [add_zero]
    exact abs_ofNat_sub_le hpos hdigits.1
  have hunit := roundoff_pos
  have hhalf := halfUnit_pos
  have hvalue : ∀ k : ℕ, (0 : ℚ) ≤ digits / 10 ^ k := fun k => by positivity
  have hdivide : ∀ {k : ℕ}, k ≤ 308 →
      |(ofNat digits / powerOfTen k).magnitude - digits / 10 ^ k| ≤
        13 / 4 * roundoff * (digits / 10 ^ k) + halfUnit := by
    intro k hk
    have herror := abs_div_powerOfTen_sub_le hdigits (Nat.cast_nonneg _) hunit.le (by linarith)
      le_rfl hk hround
    refine herror.trans_eq ?_
    ring
  rw [quotient]
  split
  · rename_i hnear
    have hproduct := mul_nonneg hunit.le (hvalue places)
    refine (hdivide hnear).trans ?_
    linarith
  · rename_i hfar
    obtain ⟨k, rfl⟩ := Nat.exists_eq_add_of_lt (not_le.mp hfar)
    rw [show 308 + k + 1 - 308 = k + 1 by omega]
    have herror := abs_div_powerOfTen_sub_le
      (hdigits.div (powerOfTen_eq (Nat.le_refl 308)).2) (hvalue 308) (by positivity)
      (by linarith) hhalf.le (show k + 1 ≤ 308 by omega) (hdivide (Nat.le_refl 308))
    have hpower : (digits : ℚ) / 10 ^ 308 / 10 ^ (k + 1) = digits / 10 ^ (308 + k + 1) := by
      rw [div_div, ← pow_add, add_assoc]
    have htenth : halfUnit / 10 ^ (k + 1) ≤ halfUnit / 10 :=
      div_le_div_of_nonneg_left hhalf.le (by norm_num) (le_self_pow₀ (by norm_num) (by omega))
    rw [hpower] at herror
    generalize (digits : ℚ) / 10 ^ (308 + k + 1) = v at *
    refine herror.trans ?_
    linarith

/-! ## Reading the shortest decimal -/

theorem decimalPlaces_le (hpos : 0 < x.units) : x.decimalPlaces ≤ 616 := by
  have hexponent := le_shortest_exponent hpos
  unfold decimalPlaces
  omega

theorem reread_isFinite (hpos : 0 < x.units) : x.reread.isFinite = true := by
  have hsmall := quotient_small (shortest_digits_lt hpos) (decimalPlaces_le hpos)
  rw [reread, isFinite_withSign]
  exact hsmall.1

/-- The ends of an interval are half a unit of the last place away. -/
theorem abs_sub_magnitude_le {v : ℚ} (h : x.readInterval.Covers v) :
    |v - x.magnitude| ≤ 2 ^ x.shift * halfUnit := by
  have hone := unitsPerOne_cast_pos
  have hlower : 4 * x.units ≤ x.readInterval.lower + 2 * 2 ^ x.shift := by
    have hgap := x.lowerGap_le
    rw [readInterval_lower, units, ← mul_assoc, ← Nat.add_mul]
    exact Nat.mul_le_mul_right _ (by omega)
  have hupper : x.readInterval.upper = 4 * x.units + 2 * 2 ^ x.shift := by
    rw [readInterval_upper, units, twoTo_eq]
    ring
  have hle := h.lower_le
  have hge := h.le_upper
  have hlower' : (4 * x.units : ℚ) ≤ x.readInterval.lower + 2 * 2 ^ x.shift := by
    exact_mod_cast hlower
  rw [readInterval_scale] at hle hge
  rw [hupper] at hge
  rw [magnitude, halfUnit]
  push_cast at hle hge
  generalize (unitsPerOne : ℚ) = one at *
  have hscale : v - x.units / one = (v * one - x.units) / one := by field_simp
  have hbound : 2 ^ x.shift * (1 / (2 * one)) * one = (2 ^ x.shift / 2 : ℚ) := by field_simp
  rw [hscale, abs_div, abs_of_pos hone, div_le_iff₀ hone, hbound, abs_le]
  constructor <;> linarith

/-- What lies in an interval has an error of less than the last place. -/
theorem roundoff_mul_le {v : ℚ} (h : x.readInterval.Covers v) :
    roundoff * v ≤ 2 * (2 ^ x.shift * halfUnit) := by
  have hone := unitsPerOne_cast_pos
  have hupper : x.readInterval.upper ≤ 4 * 2 ^ 53 * 2 ^ x.shift := by
    have hlt := x.significand_lt
    rw [readInterval_upper]
    exact Nat.mul_le_mul_right _ (by omega)
  have hge := h.le_upper
  have hupper' : (x.readInterval.upper : ℚ) ≤ 4 * 2 ^ 53 * 2 ^ x.shift := by
    exact_mod_cast hupper
  rw [readInterval_scale] at hge
  rw [halfUnit, roundoff]
  push_cast at hge
  generalize (unitsPerOne : ℚ) = one at *
  have hbound : (2 * (2 ^ x.shift * (1 / (2 * one))) : ℚ) = 2 ^ x.shift / one := by field_simp
  rw [hbound, le_div_iff₀ hone]
  linarith

/-- **How far a number is off when its shortest decimal is read**: by less than seven units in
its last place. -/
theorem abs_reread_sub_lt (hx : x.isFinite = true) (hfraction : x.units % unitsPerOne ≠ 0) :
    |(x.reread.units : ℤ) - x.units| < 7 * 2 ^ x.shift := by
  have hpos := units_pos_of_fraction hfraction
  have hcovers := covers_shortest hpos
  rw [value_shortest_eq hx hfraction] at hcovers
  have herror := abs_quotient_sub_le (shortest_digits_pos hpos) (shortest_digits_lt hpos)
    (decimalPlaces_le hpos)
  have hnear := abs_sub_magnitude_le hcovers
  have hproduct := roundoff_mul_le hcovers
  have hhalf := halfUnit_pos
  have hone := unitsPerOne_cast_pos
  have hshift : halfUnit ≤ 2 ^ x.shift * halfUnit :=
    le_mul_of_one_le_left hhalf.le (one_le_pow₀ (by norm_num))
  have hdist : |x.reread.magnitude - x.magnitude| < 14 * (2 ^ x.shift * halfUnit) := by
    calc |x.reread.magnitude - x.magnitude|
        ≤ |x.reread.magnitude - x.shortest.digits / 10 ^ x.decimalPlaces| +
          |x.shortest.digits / 10 ^ x.decimalPlaces - x.magnitude| := abs_sub_le _ _ _
      _ ≤ 11 / 2 * roundoff * (x.shortest.digits / 10 ^ x.decimalPlaces) + 6 / 5 * halfUnit +
          2 ^ x.shift * halfUnit := add_le_add herror hnear
      _ < 14 * (2 ^ x.shift * halfUnit) := by
        generalize (x.shortest.digits : ℚ) / 10 ^ x.decimalPlaces = v at *
        linarith
  rw [magnitude, magnitude, ← sub_div, abs_div, abs_of_pos hone, div_lt_iff₀ hone, halfUnit]
    at hdist
  have hbound : 14 * (2 ^ x.shift * (1 / (2 * unitsPerOne))) * unitsPerOne =
      (7 * 2 ^ x.shift : ℚ) := by
    generalize (unitsPerOne : ℚ) = one at *
    field_simp
    norm_num
  rw [hbound] at hdist
  exact_mod_cast hdist

/-- **The numbers that are read as themselves**: digits and power of ten are floats. -/
theorem reread_eq (hx : x.isFinite = true) (hfraction : x.units % unitsPerOne ≠ 0)
    (hdigits : (ofNat x.shortest.digits).IsInteger x.shortest.digits)
    (hpower : (powerOfTen x.decimalPlaces).IsInteger (tenTo x.decimalPlaces)) :
    x.reread = x := by
  have hnear : x.decimalPlaces ≤ 308 := by
    have hlarge : 2 ^ 1024 - 2 ^ 970 < 10 ^ 309 := by decide +kernel
    have hlt := (ofNat_isFinite_iff _).mp hpower.1
    by_contra hfar
    have hle := pow_le_pow_right₀ (show 1 ≤ 10 by decide) (show 309 ≤ x.decimalPlaces by omega)
    rw [tenTo_eq] at hlt
    omega
  have hcovers := covers_shortest (units_pos_of_fraction hfraction)
  have htens : 0 < tenTo x.decimalPlaces * unitsPerOne :=
    Nat.mul_pos (tenTo_pos _) unitsPerOne_pos
  have hone := unitsPerOne_cast_pos
  have hratio : x.shortest.value = ((x.shortest.digits * unitsPerOne : ℕ) : ℚ) /
      (tenTo x.decimalPlaces * unitsPerOne : ℕ) := by
    rw [value_shortest_eq hx hfraction, Nat.cast_mul, Nat.cast_mul, tenTo_cast,
      mul_div_mul_right _ _ hone.ne']
  rw [hratio] at hcovers
  have hquotient : quotient x.shortest.digits x.decimalPlaces = x.withSign false := by
    rw [quotient, if_pos hnear]
    change Binary64.div _ _ = _
    rw [Binary64.div, units_of_isInteger hdigits, powerOfTen, units_of_isInteger hpower,
      ofNat, nearest_negative, ofNat, nearest_negative]
    exact nearest_of_covers hx htens hcovers false
  rw [reread, hquotient]
  rfl

end Aggregation.Binary64
