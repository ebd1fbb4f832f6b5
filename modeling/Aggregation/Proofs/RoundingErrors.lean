import Aggregation.Proofs.ReadNumbers
import Aggregation.Proofs.ShortestDecimals

/-!
# How far rounding goes

Rounding moves a value by at most half a step of its grid: by a fraction `2 ^ -53` of the value,
or among the subnormal numbers by half a unit. Dividing a rounded number by a rounded power of
ten adds up the errors of both and of the division.

## Main definitions

* `Binary64.roundoff`, `Binary64.halfUnit` - the two bounds.

## Main results

* `Binary64.abs_nearest_sub_le` - the error of one rounding.
* `Binary64.abs_div_powerOfTen_sub_le` - the error of a division by a power of ten.
-/

namespace Aggregation.Binary64

variable {x y : Binary64} {num den : ℕ}

/-- The relative error of a rounding. -/
def roundoff : ℚ := 1 / 2 ^ 53

/-- The error of a rounding among the subnormal numbers. -/
def halfUnit : ℚ := 1 / (2 * unitsPerOne)

theorem roundoff_pos : 0 < roundoff := by
  rw [roundoff]
  positivity

theorem halfUnit_pos : 0 < halfUnit := by
  have hone := unitsPerOne_cast_pos
  rw [halfUnit]
  positivity

/-! ## One rounding -/

/-- Rounding moves a value by at most half a step of its grid. -/
theorem abs_nearest_sub_le_step (negative : Bool) (hden : 0 < den)
    (hfinite : (nearest negative num den).isFinite = true) :
    |(nearest negative num den).magnitude - num / den| ≤ 2 ^ gridShift num den * halfUnit := by
  obtain ⟨hle, hge⟩ := roundHalfEven_bounds (num * unitsPerOne) (gridStep_pos num hden)
  obtain ⟨-, -, hunits, -⟩ :=
    nearest_of_lt negative hden ((nearest_isFinite_iff negative hden).mp hfinite)
  have hone := unitsPerOne_cast_pos
  have hpos : (0 : ℚ) < den := by exact_mod_cast hden
  have hscale : gridCount num den * (den * 2 ^ gridShift num den) =
      (nearest negative num den).units * den := by
    rw [hunits]
    ring
  rw [← gridCount, hscale] at hle hge
  have hle' : (2 * ((nearest negative num den).units * den) : ℚ) ≤
      2 * (num * unitsPerOne) + den * 2 ^ gridShift num den := by exact_mod_cast hle
  have hge' : (2 * (num * unitsPerOne) : ℚ) ≤
      2 * ((nearest negative num den).units * den) + den * 2 ^ gridShift num den := by
    exact_mod_cast hge
  have hdist : |((nearest negative num den).units * den - unitsPerOne * num : ℚ)| ≤
      den * 2 ^ gridShift num den / 2 := by
    rw [abs_le]
    generalize (unitsPerOne : ℚ) = one at *
    constructor <;> linarith
  rw [magnitude, halfUnit, div_sub_div _ _ hone.ne' hpos.ne', abs_div,
    abs_of_pos (mul_pos hone hpos), div_le_iff₀ (mul_pos hone hpos)]
  generalize (unitsPerOne : ℚ) = one at *
  refine hdist.trans_eq ?_
  field_simp

/-- The half step is a small fraction of a normal value. -/
theorem step_le_of_normal (hden : 0 < den) (h : 2 ^ 52 * den ≤ num * unitsPerOne) :
    2 ^ gridShift num den * halfUnit ≤ roundoff * (num / den) := by
  have hle : 2 ^ 52 * (den * 2 ^ gridShift num den) ≤ num * unitsPerOne := by
    rcases Nat.eq_zero_or_pos (gridShift num den) with hzero | hpos
    · rw [hzero, pow_zero, mul_one]
      exact h
    · exact le_exact num hden hpos
  have hone := unitsPerOne_cast_pos
  have hpos : (0 : ℚ) < den := by exact_mod_cast hden
  have hle' : (2 ^ 52 * (den * 2 ^ gridShift num den) : ℚ) ≤ num * unitsPerOne := by
    exact_mod_cast hle
  rw [halfUnit, roundoff, mul_one_div, one_div_mul_eq_div, div_div]
  generalize (unitsPerOne : ℚ) = one at *
  rw [div_le_div_iff₀ (by positivity) (by positivity)]
  linarith

/-- **A normal value is rounded with a small relative error.** -/
theorem abs_nearest_sub_le_of_normal (negative : Bool) (hden : 0 < den)
    (hfinite : (nearest negative num den).isFinite = true)
    (h : 2 ^ 52 * den ≤ num * unitsPerOne) :
    |(nearest negative num den).magnitude - num / den| ≤ roundoff * (num / den) :=
  (abs_nearest_sub_le_step negative hden hfinite).trans (step_le_of_normal hden h)

/-- **Any value is rounded with that error**, or by at most half a unit. -/
theorem abs_nearest_sub_le (negative : Bool) (hden : 0 < den)
    (hfinite : (nearest negative num den).isFinite = true) :
    |(nearest negative num den).magnitude - num / den| ≤ roundoff * (num / den) + halfUnit := by
  have hvalue : (0 : ℚ) ≤ num / den := div_nonneg (Nat.cast_nonneg _) (Nat.cast_nonneg _)
  have herror := abs_nearest_sub_le_step negative hden hfinite
  rcases Nat.eq_zero_or_pos (gridShift num den) with hzero | hpos
  · rw [hzero, pow_zero, one_mul] at herror
    exact herror.trans (le_add_of_nonneg_left (mul_nonneg roundoff_pos.le hvalue))
  · have hnormal : 2 ^ 52 * den ≤ num * unitsPerOne := by
      refine le_trans ?_ (le_exact num hden hpos)
      rw [← mul_assoc]
      exact Nat.le_mul_of_pos_right _ (Nat.two_pow_pos _)
    have hsmall := abs_nearest_sub_le_of_normal negative hden hfinite hnormal
    exact hsmall.trans (le_add_of_nonneg_right halfUnit_pos.le)

/-- A positive natural number is rounded with a small relative error. -/
theorem abs_ofNat_sub_le {n : ℕ} (hpos : 0 < n) (hfinite : (ofNat n).isFinite = true) :
    |(ofNat n).magnitude - n| ≤ roundoff * n := by
  have hnormal : 2 ^ 52 * 1 ≤ n * unitsPerOne := by
    rw [unitsPerOne_eq]
    calc 2 ^ 52 * 1 ≤ 1 * 2 ^ 1074 := by
          rw [mul_one, one_mul]
          exact pow_le_pow_right₀ (by decide) (by decide)
      _ ≤ n * 2 ^ 1074 := Nat.mul_le_mul_right _ hpos
  have herror := abs_nearest_sub_le_of_normal false Nat.one_pos hfinite hnormal
  rw [Nat.cast_one, div_one] at herror
  exact herror

/-! ## Division by a power of ten -/

/-- The errors of a dividend and of a divisor, in the quotient. -/
theorem abs_div_sub_le {a v p t ε ζ δ : ℚ} (ht : 0 < t) (hv : 0 ≤ v) (hδ : 0 ≤ δ)
    (hδ' : δ ≤ 1 / 64) (ha : |a - v| ≤ ε * v + ζ) (hp : |p - t| ≤ δ * t) :
    |a / p - v / t| ≤ (1 + 2 * δ) * ((ε + δ) * (v / t) + ζ / t) := by
  obtain ⟨hlow, -⟩ := abs_le.mp hp
  have hδt : δ * t ≤ 1 / 64 * t := mul_le_mul_of_nonneg_right hδ' ht.le
  have hppos : 0 < p := by linarith
  have hlarge : t ≤ p * (1 + 2 * δ) := by nlinarith
  have hcross : |a * t - p * v| ≤ ((ε + δ) * v + ζ) * t := by
    calc |a * t - p * v| = |(a - v) * t - v * (p - t)| := by ring_nf
      _ ≤ |(a - v) * t| + |v * (p - t)| := abs_sub _ _
      _ = |a - v| * t + v * |p - t| := by rw [abs_mul, abs_mul, abs_of_pos ht, abs_of_nonneg hv]
      _ ≤ (ε * v + ζ) * t + v * (δ * t) := by gcongr
      _ = ((ε + δ) * v + ζ) * t := by ring
  have hnonneg : 0 ≤ (ε + δ) * v + ζ :=
    nonneg_of_mul_nonneg_left ((abs_nonneg _).trans hcross) ht
  have hscale : (1 + 2 * δ) * ((ε + δ) * (v / t) + ζ / t) * (p * t) =
      ((ε + δ) * v + ζ) * (p * (1 + 2 * δ)) := by
    field_simp
  rw [div_sub_div _ _ hppos.ne' ht.ne', abs_div, abs_of_pos (mul_pos hppos ht),
    div_le_iff₀ (mul_pos hppos ht), hscale]
  exact hcross.trans (mul_le_mul_of_nonneg_left hlarge hnonneg)

/-- Rounding the quotient adds its own error. -/
theorem abs_sub_le_of_quotient {q w r ε ζ δ η : ℚ} (hw : 0 ≤ w) (hδ : 0 ≤ δ) (hδ' : δ ≤ 1 / 64)
    (hε : 0 ≤ ε) (hε' : ε ≤ 4 * δ) (hζ : 0 ≤ ζ)
    (hq : |q - w| ≤ (1 + 2 * δ) * ((ε + δ) * w + ζ)) (hr : |r - q| ≤ δ * q + η) :
    |r - w| ≤ (ε + 9 / 4 * δ) * w + 9 / 8 * ζ + η := by
  have hfactor : (1 + δ) * (1 + 2 * δ) ≤ 1 + 97 / 32 * δ := by nlinarith
  have hsum : 0 ≤ (ε + δ) * w + ζ := by positivity
  have hquotient : q ≤ w + (1 + 2 * δ) * ((ε + δ) * w + ζ) := by
    linarith [(abs_le.mp hq).2]
  have hsmall : δ * (ε + δ) * w ≤ 5 / 64 * δ * w := by
    refine mul_le_mul_of_nonneg_right ?_ hw
    rw [mul_comm (5 / 64)]
    exact mul_le_mul_of_nonneg_left (by linarith) hδ
  have hrest : δ * ζ ≤ 1 / 64 * ζ := mul_le_mul_of_nonneg_right hδ' hζ
  calc |r - w| ≤ |r - q| + |q - w| := abs_sub_le r q w
    _ ≤ δ * q + η + (1 + 2 * δ) * ((ε + δ) * w + ζ) := add_le_add hr hq
    _ ≤ δ * (w + (1 + 2 * δ) * ((ε + δ) * w + ζ)) + η + (1 + 2 * δ) * ((ε + δ) * w + ζ) := by
      gcongr
    _ = δ * w + (1 + δ) * (1 + 2 * δ) * ((ε + δ) * w + ζ) + η := by ring
    _ ≤ δ * w + (1 + 97 / 32 * δ) * ((ε + δ) * w + ζ) + η := by gcongr
    _ = δ * w + (ε + δ) * w + ζ + 97 / 32 * (δ * (ε + δ) * w) + 97 / 32 * (δ * ζ) + η := by ring
    _ ≤ (ε + 9 / 4 * δ) * w + 9 / 8 * ζ + η := by nlinarith

/-- A quotient is the ratio of the magnitudes, rounded. -/
theorem abs_div_sub_magnitude_le (hy : 0 < y.units) (hfinite : (x / y).isFinite = true) :
    |(x / y).magnitude - x.magnitude / y.magnitude| ≤
      roundoff * (x.magnitude / y.magnitude) + halfUnit := by
  have hratio : x.magnitude / y.magnitude = (x.units : ℚ) / y.units := by
    rw [magnitude, magnitude, div_div_div_cancel_right₀ unitsPerOne_cast_pos.ne']
  rw [show x / y = Binary64.div x y from rfl, Binary64.div] at hfinite ⊢
  rw [hratio]
  exact abs_nearest_sub_le _ hy hfinite

/-- **Dividing by a power of ten** adds little more than twice the relative error. -/
theorem abs_div_powerOfTen_sub_le {v ε ζ : ℚ} {k : ℕ} (hx : x.Small) (hv : 0 ≤ v) (hε : 0 ≤ ε)
    (hε' : ε ≤ 4 * roundoff) (hζ : 0 ≤ ζ) (hk : k ≤ 308)
    (h : |x.magnitude - v| ≤ ε * v + ζ) :
    |(x / powerOfTen k).magnitude - v / 10 ^ k| ≤
      (ε + 9 / 4 * roundoff) * (v / 10 ^ k) + 9 / 8 * (ζ / 10 ^ k) + halfUnit := by
  obtain ⟨hfinite, hunits⟩ := powerOfTen_eq hk
  have hpower := abs_ofNat_sub_le (tenTo_pos k) hfinite
  rw [tenTo_cast] at hpower
  have htens : (0 : ℚ) < 10 ^ k := by positivity
  have hsmall : roundoff ≤ 1 / 64 := by
    rw [roundoff]
    norm_num
  have hquotient := abs_div_sub_le htens hv roundoff_pos.le hsmall h hpower
  have hround : |(x / powerOfTen k).magnitude - x.magnitude / (powerOfTen k).magnitude| ≤
      roundoff * (x.magnitude / (powerOfTen k).magnitude) + halfUnit :=
    abs_div_sub_magnitude_le (unitsPerOne_pos.trans_le hunits) (hx.div hunits).1
  exact abs_sub_le_of_quotient (div_nonneg hv htens.le) roundoff_pos.le hsmall hε hε'
    (div_nonneg hζ htens.le) hquotient hround

end Aggregation.Binary64
