import Aggregation.Proofs.DecimalValues
import Aggregation.Proofs.RoundingBudgets
import Aggregation.Proofs.ScaledDecimals
import Mathlib.Data.Nat.Cast.Field

/-!
# The floats that decimals make

A decimal that is no integer of 64 bits becomes a float in several rounded steps: its whole part
and its fraction are rounded and added, the sum is scaled up, snapped to an integer and scaled
down again. The result depends on the scale and not on the value alone. It is finite and close to
the value all the same; and as long as the digits and the power of ten are floats themselves, and
few enough digits, the snapping recovers the digits and only the last division rounds, so that the
scale does not matter.

## Main definitions

* `Binary64.value` - the number that a finite float stands for.
* `Decimal.Short` - at most fifteen digits and twenty-two places.

## Main results

* `Decimal.rounded_magnitude` - sixteen roundings at most.
* `Decimal.abs_toBinary64_sub_le` - how far the float is from the decimal.
* `Decimal.magnitude_of_short` - a short decimal is rounded once.
* `Decimal.toBinary64_eq_of_short` - so its scale does not matter.
-/

namespace Aggregation

namespace Binary64

/-- The number that a finite float stands for. -/
def value (x : Binary64) : ℚ := x.signedUnits / unitsPerOne

theorem value_withSign (x : Binary64) (negative : Bool) :
    (x.withSign negative).value = if negative then -x.magnitude else x.magnitude := by
  have hunits : (x.withSign negative).units = x.units := rfl
  have hsign : (x.withSign negative).negative = negative := rfl
  rw [value, signedUnits, hunits, hsign]
  cases negative
  · rfl
  · rw [if_pos rfl, if_pos rfl, Int.cast_neg, neg_div]
    rfl

@[simp] theorem isZero_withSign (x : Binary64) (negative : Bool) :
    (x.withSign negative).isZero = x.isZero := rfl

/-! ## Rounding a ratio -/

theorem roundHalfEven_mul_left {k : ℕ} (hk : 0 < k) (num den : ℕ) :
    roundHalfEven (k * num) (k * den) = roundHalfEven num den := by
  have hscale : 2 * (k * (num % den)) = k * (2 * (num % den)) := Nat.mul_left_comm _ _ _
  simp only [roundHalfEven, Nat.mul_div_mul_left _ _ hk, Nat.mul_mod_mul_left, hscale,
    Nat.mul_lt_mul_left hk]

/-- A factor in both terms of a ratio is not seen. -/
theorem nearest_mul_left {k : ℕ} (hk : 0 < k) (negative : Bool) (num den : ℕ) :
    nearest negative (k * num) (k * den) = nearest negative num den := by
  simp only [nearest, Nat.mul_assoc, Nat.mul_div_mul_left _ _ hk, roundHalfEven_mul_left hk]

/-- **Rounding a ratio depends on its value alone.** -/
theorem nearest_eq_of_mul_eq {num num' den den' : ℕ} (hden : 0 < den) (hden' : 0 < den')
    (h : num * den' = num' * den) (negative : Bool) :
    nearest negative num den = nearest negative num' den' := by
  rw [← nearest_mul_left hden', ← nearest_mul_left hden negative num', Nat.mul_comm den' num, h,
    Nat.mul_comm num', Nat.mul_comm den' den]

end Binary64

namespace Decimal

open Binary64 (Moderate moderate_div moderate_natCast)

variable {d e : Decimal}

theorem abs_value (d : Decimal) : |d.value| = d.mantissa.natAbs / d.denominator := by
  rw [value, abs_div, abs_of_pos d.denominator_cast_pos, Nat.cast_natAbs, Int.cast_abs]

theorem value_neg_iff : d.value < 0 ↔ d.mantissa < 0 := by
  rw [value, div_lt_iff₀ d.denominator_cast_pos, zero_mul, Int.cast_lt_zero]

theorem natAbs_le (d : Decimal) : d.mantissa.natAbs ≤ 2 ^ 100 := by
  have := d.mantissa_lt
  omega

theorem denominator_le (d : Decimal) : d.denominator ≤ 2 ^ 100 := by
  rw [denominator, tenTo_eq]
  exact (pow_le_pow_right₀ (by decide) d.scale_le).trans (by decide)

/-! ## The steps of the conversion -/

/-- What the digits come back as, before they are snapped to an integer. -/
def unsnapped (d : Decimal) : Binary64 :=
  (Binary64.ofNat (d.mantissa.natAbs / d.denominator) +
    Binary64.ofNat (d.mantissa.natAbs % d.denominator) / Binary64.ofNat d.denominator) *
    Binary64.ofNat d.denominator

/-- Without a fraction the whole part is rounded. -/
theorem magnitude_of_integer (h : d.mantissa.natAbs % d.denominator = 0) :
    d.magnitude = Binary64.ofNat (d.mantissa.natAbs / d.denominator) := by
  have hzero : (Binary64.ofNat 0 / Binary64.ofNat d.denominator).isZero = true := by
    change (Binary64.div _ _).isZero = true
    rw [Binary64.div, Binary64.ofNat, Binary64.nearest_zero, Binary64.units_zero,
      Binary64.nearest_zero]
    rfl
  rw [magnitude, h]
  exact if_pos hzero

theorem natAbs_pos_of_fraction (h : d.mantissa.natAbs % d.denominator ≠ 0) :
    0 < d.mantissa.natAbs := by
  rcases Nat.eq_zero_or_pos d.mantissa.natAbs with hzero | hpos
  · rw [hzero, Nat.zero_mod] at h
    exact absurd rfl h
  · exact hpos

/-- The fraction, when its terms are rounded no more than the whole part. -/
theorem rounded_fraction {i : ℕ} (hi : i ≤ 1) (hrest : d.mantissa.natAbs % d.denominator ≠ 0)
    (hnum : (Binary64.ofNat (d.mantissa.natAbs % d.denominator)).Rounded i
      (d.mantissa.natAbs % d.denominator : ℕ))
    (hden : (Binary64.ofNat d.denominator).Rounded i d.denominator) :
    (Binary64.ofNat (d.mantissa.natAbs % d.denominator) /
      Binary64.ofNat d.denominator).Rounded (i + i + 1)
      ((d.mantissa.natAbs % d.denominator : ℕ) / d.denominator) :=
  hnum.div hden (Nat.cast_nonneg _) d.denominator_cast_pos
    (moderate_div (Nat.pos_of_ne_zero hrest) ((Nat.mod_le _ _).trans d.natAbs_le)
      d.denominator_pos d.denominator_le) (by omega)

/-- With a fraction the digits come back, are snapped and divided again. -/
theorem magnitude_of_fraction (h : d.mantissa.natAbs % d.denominator ≠ 0) :
    d.magnitude = d.unsnapped.round / Binary64.ofNat d.denominator := by
  have hfraction := rounded_fraction (Nat.le_refl 1) h
    (.ofNat ((Nat.mod_le _ _).trans d.natAbs_le)) (.ofNat d.denominator_le)
  have hunits := hfraction.pos (div_pos (by exact_mod_cast Nat.pos_of_ne_zero h)
    d.denominator_cast_pos)
  rw [magnitude]
  exact if_neg fun hzero => hunits.ne' (Binary64.units_eq_zero_of_isZero hzero)

/-- **The digits come back** up to three roundings, and three more for each of its terms. -/
theorem rounded_unsnapped {i : ℕ} (hi : i ≤ 1) (hrest : d.mantissa.natAbs % d.denominator ≠ 0)
    (hwhole : (Binary64.ofNat (d.mantissa.natAbs / d.denominator)).Rounded i
      (d.mantissa.natAbs / d.denominator : ℕ))
    (hnum : (Binary64.ofNat (d.mantissa.natAbs % d.denominator)).Rounded i
      (d.mantissa.natAbs % d.denominator : ℕ))
    (hden : (Binary64.ofNat d.denominator).Rounded i d.denominator) :
    d.unsnapped.Rounded (3 * i + 3) d.mantissa.natAbs := by
  have hfraction := rounded_fraction hi hrest hnum hden
  have hpos := natAbs_pos_of_fraction hrest
  have hvalue : ((d.mantissa.natAbs / d.denominator : ℕ) : ℚ) +
      (d.mantissa.natAbs % d.denominator : ℕ) / d.denominator =
        d.mantissa.natAbs / d.denominator := by
    rw [eq_div_iff d.denominator_cast_pos.ne', add_mul, div_mul_cancel₀ _
      d.denominator_cast_pos.ne']
    exact_mod_cast Nat.div_add_mod' d.mantissa.natAbs d.denominator
  have hmoderate : Moderate (d.mantissa.natAbs / d.denominator) :=
    moderate_div hpos d.natAbs_le d.denominator_pos d.denominator_le
  have hsum := (hwhole.mono (show i ≤ i + i + 1 by omega)).add hfraction (hvalue ▸ hmoderate)
    (by omega)
  rw [hvalue] at hsum
  have hproduct : (d.mantissa.natAbs / d.denominator * d.denominator : ℚ) = d.mantissa.natAbs :=
    div_mul_cancel₀ _ d.denominator_cast_pos.ne'
  have hscaled := hsum.mul hden hmoderate.pos.le d.denominator_cast_pos.le
    (hproduct.symm ▸ moderate_natCast hpos d.natAbs_le) (by omega)
  rw [hproduct] at hscaled
  exact hscaled.mono (by omega)

/-! ## Any decimal -/

/-- **The magnitude is that of the decimal up to sixteen roundings.** -/
theorem rounded_magnitude (d : Decimal) : d.magnitude.Rounded 16 |d.value| := by
  have hwhole : (Binary64.ofNat (d.mantissa.natAbs / d.denominator)).Rounded 1
      (d.mantissa.natAbs / d.denominator : ℕ) := .ofNat ((Nat.div_le_self _ _).trans d.natAbs_le)
  rw [abs_value]
  by_cases h : d.mantissa.natAbs % d.denominator = 0
  · rw [magnitude_of_integer h, ← Nat.cast_div (Nat.dvd_of_mod_eq_zero h)
      d.denominator_cast_pos.ne']
    exact hwhole.mono (by decide)
  · have hpos := natAbs_pos_of_fraction h
    have hden : (Binary64.ofNat d.denominator).Rounded 1 d.denominator := .ofNat d.denominator_le
    have hdigits := (rounded_unsnapped (Nat.le_refl 1) h hwhole
      (.ofNat ((Nat.mod_le _ _).trans d.natAbs_le)) hden).round
      (moderate_natCast hpos d.natAbs_le) (by decide)
    rw [magnitude_of_fraction h]
    exact hdigits.div hden (Nat.cast_nonneg _) d.denominator_cast_pos
      (moderate_div hpos d.natAbs_le d.denominator_pos d.denominator_le) (by decide)

/-- **A decimal makes a finite float.** -/
theorem isFinite_toBinary64 (d : Decimal) : d.toBinary64.isFinite = true := by
  rw [toBinary64, Binary64.isFinite_withSign]
  exact d.rounded_magnitude.finite

theorem negative_toBinary64 (d : Decimal) : d.toBinary64.negative = decide (d.value < 0) := by
  rw [toBinary64, decide_eq_decide.mpr d.value_neg_iff]
  rfl

/-- **The float is close to the decimal.** -/
theorem abs_toBinary64_sub_le (d : Decimal) :
    |d.toBinary64.value - d.value| ≤ |d.value| / 2 ^ 48 := by
  have hspread : Binary64.spread ^ 16 - 1 ≤ 1 / 2 ^ 48 := by
    rw [Binary64.spread, Binary64.roundoff]
    norm_num
  have hdist : |d.toBinary64.value - d.value| = |d.magnitude.magnitude - (|d.value|)| := by
    rw [toBinary64, Binary64.value_withSign]
    by_cases hneg : d.mantissa < 0
    · rw [decide_eq_true hneg, if_pos rfl, abs_of_neg (value_neg_iff.mpr hneg), sub_neg_eq_add,
        ← neg_add', abs_neg]
    · have hnonneg : 0 ≤ d.value := not_lt.mp fun hvalue => hneg (value_neg_iff.mp hvalue)
      rw [decide_eq_false hneg, if_neg (by decide), abs_of_nonneg hnonneg]
  rw [hdist]
  calc |d.magnitude.magnitude - (|d.value|)|
      ≤ (Binary64.spread ^ 16 - 1) * |d.value| := d.rounded_magnitude.abs_sub_le
    _ ≤ 1 / 2 ^ 48 * |d.value| := mul_le_mul_of_nonneg_right hspread (abs_nonneg _)
    _ = |d.value| / 2 ^ 48 := by ring

/-- Where the value is not zero, neither is the float. -/
theorem isZero_toBinary64 (h : d.value ≠ 0) : d.toBinary64.isZero = false := by
  have hunits := d.rounded_magnitude.pos (abs_pos.mpr h)
  rw [toBinary64, Binary64.isZero_withSign, Bool.eq_false_iff]
  exact fun hzero => hunits.ne' (Binary64.units_eq_zero_of_isZero hzero)

/-! ## Short decimals -/

/-- At most fifteen digits and twenty-two places: the digits and the power of ten are floats. -/
def Short (d : Decimal) : Prop := d.mantissa.natAbs < 10 ^ 15 ∧ d.scale ≤ 22

instance (d : Decimal) : Decidable d.Short := inferInstanceAs (Decidable (_ ∧ _))

/-- **A short decimal is rounded once.** -/
theorem magnitude_of_short (hd : d.Short) :
    d.magnitude = Binary64.nearest false d.mantissa.natAbs d.denominator := by
  have hexact : ∀ n ≤ d.mantissa.natAbs, (Binary64.ofNat n).IsInteger n := fun n hn =>
    Binary64.isInteger_ofNat_of_le (by have := hd.1; omega)
  have hpower : (Binary64.ofNat d.denominator).IsInteger d.denominator :=
    Binary64.isInteger_powerOfTen hd.2
  by_cases h : d.mantissa.natAbs % d.denominator = 0
  · rw [magnitude_of_integer h, Binary64.ofNat]
    refine Binary64.nearest_eq_of_mul_eq Nat.one_pos d.denominator_pos ?_ false
    rw [Nat.div_mul_cancel (Nat.dvd_of_mod_eq_zero h), Nat.mul_one]
  · have hdigits := rounded_unsnapped (Nat.zero_le 1) h
      (.of_isInteger (hexact _ (Nat.div_le_self _ _)))
      (.of_isInteger (hexact _ (Nat.mod_le _ _))) (.of_isInteger hpower)
    have hnear : |d.unsnapped.magnitude - d.mantissa.natAbs| < 1 / 2 := by
      have hcast : (d.mantissa.natAbs : ℚ) ≤ 10 ^ 15 := by exact_mod_cast hd.1.le
      calc |d.unsnapped.magnitude - d.mantissa.natAbs|
          ≤ (Binary64.spread ^ 3 - 1) * d.mantissa.natAbs := hdigits.abs_sub_le
        _ ≤ (Binary64.spread ^ 3 - 1) * 10 ^ 15 :=
          mul_le_mul_of_nonneg_left hcast (by linarith [Binary64.one_le_spread_pow 3])
        _ < 1 / 2 := by
          rw [Binary64.spread, Binary64.roundoff]
          norm_num
    have hround : d.unsnapped.round = Binary64.ofNat d.mantissa.natAbs := by
      rw [Binary64.round_eq hdigits.nonneg, Binary64.nearestInteger_eq hnear]
    rw [magnitude_of_fraction h, hround]
    change Binary64.div _ _ = _
    rw [Binary64.div, Binary64.units_of_isInteger (hexact _ le_rfl),
      Binary64.units_of_isInteger hpower, Nat.mul_comm, Nat.mul_comm d.denominator,
      Binary64.nearest_mul_left Binary64.unitsPerOne_pos, Binary64.ofNat, Binary64.ofNat,
      Binary64.nearest_negative, Binary64.nearest_negative]
    rfl

/-- **Short decimals of one value make one float**, whatever their scales. -/
theorem toBinary64_eq_of_short (hd : d.Short) (he : e.Short) (h : d.value = e.value) :
    d.toBinary64 = e.toBinary64 := by
  have hcross : d.mantissa.natAbs * e.denominator = e.mantissa.natAbs * d.denominator := by
    have habs : (d.mantissa.natAbs / d.denominator : ℚ) = e.mantissa.natAbs / e.denominator := by
      rw [← abs_value, ← abs_value, h]
    rw [div_eq_div_iff d.denominator_cast_pos.ne' e.denominator_cast_pos.ne'] at habs
    exact_mod_cast habs
  have hsign : d.mantissa < 0 ↔ e.mantissa < 0 := by
    rw [← value_neg_iff, ← value_neg_iff, h]
  rw [toBinary64, toBinary64, magnitude_of_short hd, magnitude_of_short he,
    Binary64.nearest_eq_of_mul_eq d.denominator_pos e.denominator_pos hcross,
    decide_eq_decide.mpr hsign]

end Decimal
end Aggregation
