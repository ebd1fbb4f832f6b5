import Aggregation.Binary64.Shortest
import Aggregation.Proofs.Numbers
import Mathlib.Algebra.Order.Field.Basic
import Mathlib.Data.Rat.Cast.Order

/-!
# What lies in the interval of a number rounds to it

The interval of a finite number reaches halfway to its neighbours, and holds its ends when the
significand is even. Rounding a value within it gives the number: the value is counted on the
grid of the number, or, just below a power of two, on the next finer grid, where the count is a
carry.

## Main definitions

* `Binary64.ReadInterval.Covers` - a rational number lies in the interval.

## Main results

* `Binary64.ReadInterval.contains_iff` - the test of the search decides it.
* `Binary64.nearest_of_covers` - what lies in the interval of a number rounds to it.
* `Binary64.isInteger_ofNat` - natural numbers that are not rounded.
-/

namespace Aggregation

/-- A count within half a step of the exact one, and even on a tie, is the one chosen. -/
theorem roundHalfEven_eq {num den k : ℕ} (hden : 0 < den) (hle : 2 * (k * den) ≤ 2 * num + den)
    (hge : 2 * num ≤ 2 * (k * den) + den)
    (heven : 2 * (k * den) = 2 * num + den ∨ 2 * num = 2 * (k * den) + den → k % 2 = 0) :
    roundHalfEven num den = k := by
  obtain ⟨hle', hge'⟩ := roundHalfEven_bounds num hden
  have heven' := roundHalfEven_even num hden
  set r := roundHalfEven num den
  -- Two different counts are both half a step away, and neighbours, of which one is odd.
  rcases Nat.lt_trichotomy r k with hlt | heq | hlt
  · have hstep := Nat.mul_le_mul_right den (Nat.succ_le_of_lt hlt)
    rw [Nat.succ_mul] at hstep
    have hr := heven' (.inr (by omega))
    have hk := heven (.inl (by omega))
    have hnext : k = r + 1 := by
      refine le_antisymm ?_ hlt
      by_contra hfar
      have hstep := Nat.mul_le_mul_right den (show r + 2 ≤ k by omega)
      rw [Nat.add_mul] at hstep
      omega
    omega
  · exact heq
  · have hstep := Nat.mul_le_mul_right den (Nat.succ_le_of_lt hlt)
    rw [Nat.succ_mul] at hstep
    have hr := heven' (.inl (by omega))
    have hk := heven (.inr (by omega))
    have hnext : r = k + 1 := by
      refine le_antisymm ?_ hlt
      by_contra hfar
      have hstep := Nat.mul_le_mul_right den (show k + 2 ≤ r by omega)
      rw [Nat.add_mul] at hstep
      omega
    omega

namespace Binary64

namespace ReadInterval

variable {bounds : ReadInterval} {v : ℚ} {num factor step k : ℕ}

/-- The number lies within the interval, at an end of it only if the interval is closed. -/
structure Covers (bounds : ReadInterval) (v : ℚ) : Prop where
  lower_le : bounds.lower ≤ v * bounds.scale
  le_upper : v * bounds.scale ≤ bounds.upper
  closed_of_end : v * bounds.scale = bounds.lower ∨ v * bounds.scale = bounds.upper →
    bounds.closed = true

/-- **The test for an interval decides what lies in it.** -/
theorem contains_iff (hscale : 0 < bounds.scale) :
    bounds.contains num = true ↔ bounds.Covers (num / bounds.scale) := by
  have hvalue : (num / bounds.scale : ℚ) * bounds.scale = num :=
    div_mul_cancel₀ _ (by exact_mod_cast hscale.ne')
  rw [contains]
  split
  · rename_i hclosed
    simp only [Bool.and_eq_true, decide_eq_true_eq]
    constructor
    · rintro ⟨hle, hge⟩
      refine ⟨?_, ?_, fun _ => hclosed⟩ <;> rw [hvalue] <;> exact_mod_cast ‹_›
    · rintro ⟨hle, hge, -⟩
      rw [hvalue] at hle hge
      exact ⟨by exact_mod_cast hle, by exact_mod_cast hge⟩
  · rename_i hopen
    simp only [Bool.and_eq_true, decide_eq_true_eq]
    constructor
    · rintro ⟨hlt, hgt⟩
      refine ⟨?_, ?_, ?_⟩ <;> rw [hvalue]
      · exact_mod_cast hlt.le
      · exact_mod_cast hgt.le
      · rintro (hend | hend) <;> norm_cast at hend <;> omega
    · rintro ⟨hle, hge, hclosed⟩
      rw [hvalue] at hle hge hclosed
      norm_cast at hle hge hclosed
      have hlower : num ≠ bounds.lower := fun hend => hopen (hclosed (.inl hend))
      have hupper : num ≠ bounds.upper := fun hend => hopen (hclosed (.inr hend))
      omega

/-- A finer scale leaves the interval as it is. -/
theorem covers_refine (hfactor : 0 < factor) :
    (bounds.refine factor).Covers v ↔ bounds.Covers v := by
  have hpos : (0 : ℚ) < factor := by exact_mod_cast hfactor
  have hlower : ((bounds.refine factor).lower : ℚ) = bounds.lower * factor := Nat.cast_mul _ _
  have hupper : ((bounds.refine factor).upper : ℚ) = bounds.upper * factor := Nat.cast_mul _ _
  have hscale : v * (bounds.refine factor).scale = v * bounds.scale * factor := by
    rw [mul_assoc]
    exact congrArg (v * ·) (Nat.cast_mul _ _)
  constructor
  · rintro ⟨hle, hge, hend⟩
    rw [hlower, hscale] at hle
    rw [hupper, hscale] at hge
    rw [hlower, hupper, hscale, mul_left_inj' hpos.ne', mul_left_inj' hpos.ne'] at hend
    exact ⟨le_of_mul_le_mul_right hle hpos, le_of_mul_le_mul_right hge hpos, hend⟩
  · rintro ⟨hle, hge, hend⟩
    refine ⟨?_, ?_, ?_⟩
    · rw [hlower, hscale]
      exact mul_le_mul_of_nonneg_right hle hpos.le
    · rw [hupper, hscale]
      exact mul_le_mul_of_nonneg_right hge hpos.le
    · rw [hlower, hupper, hscale, mul_left_inj' hpos.ne', mul_left_inj' hpos.ne']
      exact hend

/-- A multiple that is found lies in the interval. -/
theorem contains_of_multiple? (h : bounds.multiple? step = some k) :
    bounds.contains (k * step) = true := by
  simp only [multiple?] at h
  split at h
  · rename_i hbelow
    cases h
    exact (Bool.and_eq_true_iff.mp hbelow).1
  · split at h
    · cases h
      assumption
    · contradiction

/-- In an interval that reaches farther than half a step to both sides a multiple is found. -/
theorem exists_multiple? (hstep : 0 < step) (hlower : 2 * bounds.lower + step < 2 * bounds.center)
    (hupper : 2 * bounds.center + step < 2 * bounds.upper) :
    ∃ k, bounds.multiple? step = some k := by
  have hdiv := Nat.div_add_mod' bounds.center step
  have hmod := Nat.mod_lt bounds.center hstep
  have hcontains : ∀ num, bounds.lower < num → num < bounds.upper → bounds.contains num = true := by
    intro num hgt hlt
    rw [contains]
    split <;> simp only [Bool.and_eq_true, decide_eq_true_eq] <;> omega
  have hfits : bounds.contains (bounds.center / step * step) = true ∨
      bounds.contains ((bounds.center / step + 1) * step) = true := by
    rcases Nat.lt_or_ge step (2 * (bounds.center % step)) with hfar | hnear
    · refine .inr (hcontains _ ?_ ?_) <;> rw [Nat.add_one_mul] <;> omega
    · exact .inl (hcontains _ (by omega) (by omega))
  simp only [multiple?]
  split
  · exact ⟨_, rfl⟩
  · split
    · exact ⟨_, rfl⟩
    · rename_i hbelow habove
      rcases hfits with h | h
      · rw [h] at hbelow
        simp only [Bool.true_and, Bool.or_eq_true, Bool.not_eq_true', not_or] at hbelow
        exact absurd (Bool.eq_true_of_not_eq_false hbelow.2) habove
      · exact absurd h habove

end ReadInterval

/-! ## Rounding within an interval -/

variable {x : Binary64} {num den : ℕ}

/-- A finite number stands at the place of its shift and its significand. -/
theorem atPlace_significand (hx : x.isFinite = true) (negative : Bool) :
    atPlace negative (x.shift * 2 ^ 52 + x.significand) = x.withSign negative := by
  obtain ⟨sign, ⟨exponent, hexponent⟩, ⟨fraction, hfraction⟩⟩ := x
  simp only [isFinite, bne_iff_ne] at hx
  have hplace : Binary64.shift ⟨sign, ⟨exponent, hexponent⟩, ⟨fraction, hfraction⟩⟩ * 2 ^ 52 +
      significand ⟨sign, ⟨exponent, hexponent⟩, ⟨fraction, hfraction⟩⟩ =
        exponent * 2 ^ 52 + fraction := by
    simp only [Binary64.shift, significand]
    split <;> omega
  rw [hplace, atPlace, dif_pos (by omega)]
  simp only [withSign, Binary64.mk.injEq, Fin.mk.injEq, true_and]
  omega

/-- Below `2 ^ 53` steps of a grid, the value is counted on it or on a finer one. -/
theorem gridShift_le {shift : ℕ} (hden : 0 < den)
    (h : num * unitsPerOne < 2 ^ 53 * (den * 2 ^ shift)) : gridShift num den ≤ shift := by
  have hquot : num * unitsPerOne / den < 2 ^ (53 + shift) := by
    rw [Nat.div_lt_iff_lt_mul hden, pow_add]
    calc num * unitsPerOne < 2 ^ 53 * (den * 2 ^ shift) := h
      _ = 2 ^ 53 * 2 ^ shift * den := by ring
  rcases Nat.eq_zero_or_pos (num * unitsPerOne / den) with hzero | hpos
  · simp [gridShift, hzero]
  · have hlog := (Nat.log2_lt hpos.ne').mpr hquot
    unfold gridShift
    omega

/-- From `2 ^ 52` steps of a grid on, it is counted on it or on a coarser one. -/
theorem le_gridShift {shift : ℕ} (hden : 0 < den)
    (h : 2 ^ 52 * (den * 2 ^ shift) ≤ num * unitsPerOne) : shift ≤ gridShift num den := by
  have hquot : 2 ^ (52 + shift) ≤ num * unitsPerOne / den := by
    rw [Nat.le_div_iff_mul_le hden, pow_add]
    calc 2 ^ 52 * 2 ^ shift * den = 2 ^ 52 * (den * 2 ^ shift) := by ring
      _ ≤ num * unitsPerOne := h
  have hpos : num * unitsPerOne / den ≠ 0 := by
    have := Nat.two_pow_pos (52 + shift)
    omega
  have hlog := (Nat.le_log2 hpos).mpr hquot
  unfold gridShift
  omega

/-- The half step, or just below a power of two the quarter, from a number to the lower end of
its interval, in quarters of a step. -/
def lowerGap (x : Binary64) : ℕ := if x.fraction.val = 0 ∧ 1 < x.exponent.val then 1 else 2

theorem readInterval_lower (x : Binary64) :
    x.readInterval.lower = (4 * x.significand - x.lowerGap) * 2 ^ x.shift := rfl

theorem readInterval_upper (x : Binary64) :
    x.readInterval.upper = (4 * x.significand + 2) * 2 ^ x.shift := rfl

theorem readInterval_scale (x : Binary64) : x.readInterval.scale = 4 * unitsPerOne := rfl

theorem readInterval_closed (x : Binary64) :
    x.readInterval.closed = true ↔ x.significand % 2 = 0 := by
  rw [show x.readInterval.closed = (x.significand % 2 == 0) from rfl, beq_iff_eq]

/-- The interval in natural numbers: the value in quarters of a unit, times the denominator. -/
theorem covers_div_iff (hden : 0 < den) : x.readInterval.Covers (num / den) ↔
    x.readInterval.lower * den ≤ 4 * (num * unitsPerOne) ∧
      4 * (num * unitsPerOne) ≤ x.readInterval.upper * den ∧
        (4 * (num * unitsPerOne) = x.readInterval.lower * den ∨
          4 * (num * unitsPerOne) = x.readInterval.upper * den → x.significand % 2 = 0) := by
  have hpos : (0 : ℚ) < den := by exact_mod_cast hden
  have hvalue : (num / den : ℚ) * x.readInterval.scale =
      (4 * (num * unitsPerOne) : ℕ) / (den : ℚ) := by
    rw [readInterval_scale]
    push_cast
    ring
  rw [← readInterval_closed]
  constructor
  · rintro ⟨hle, hge, hend⟩
    rw [hvalue] at hle hge hend
    rw [le_div_iff₀ hpos] at hle
    rw [div_le_iff₀ hpos] at hge
    rw [div_eq_iff hpos.ne', div_eq_iff hpos.ne'] at hend
    exact ⟨by exact_mod_cast hle, by exact_mod_cast hge, by exact_mod_cast hend⟩
  · rintro ⟨hle, hge, hend⟩
    refine ⟨?_, ?_, ?_⟩ <;> rw [hvalue]
    · rw [le_div_iff₀ hpos]
      exact_mod_cast hle
    · rw [div_le_iff₀ hpos]
      exact_mod_cast hge
    · rw [div_eq_iff hpos.ne', div_eq_iff hpos.ne']
      exact_mod_cast hend

theorem lowerGap_le (x : Binary64) : x.lowerGap ≤ 2 := by
  unfold lowerGap
  split <;> decide

/-- On a coarser grid than that of the units the significand is a normal one, and only the least
of them has the lower end of its interval at a quarter. -/
theorem normal_of_shift_pos (h : 0 < x.shift) :
    2 ^ 52 ≤ x.significand ∧ (x.significand = 2 ^ 52 → x.lowerGap = 1) := by
  have hexponent : 1 < x.exponent.val := by
    unfold Binary64.shift at h
    omega
  have hsignificand : x.significand = 2 ^ 52 + x.fraction.val := by
    rw [significand, if_neg (by omega)]
    rfl
  refine ⟨by omega, fun hleast => ?_⟩
  rw [lowerGap, if_pos ⟨by omega, hexponent⟩]

/-- The place that a value in the interval of a number is rounded to. -/
theorem place_of_covers (hden : 0 < den) (h : x.readInterval.Covers (num / den)) :
    gridShift num den * 2 ^ 52 + gridCount num den = x.shift * 2 ^ 52 + x.significand := by
  obtain ⟨hlower, hupper, hend⟩ := (covers_div_iff hden).mp h
  have hstep := Nat.mul_pos hden (Nat.two_pow_pos x.shift)
  have hgap := x.lowerGap_le
  have hlt := x.significand_lt
  rw [readInterval_lower, mul_assoc, mul_comm (2 ^ x.shift)] at hlower hend
  rw [readInterval_upper, mul_assoc, mul_comm (2 ^ x.shift)] at hupper hend
  have hfine : gridShift num den ≤ x.shift := by
    apply gridShift_le hden
    have hmul := Nat.mul_le_mul_right (den * 2 ^ x.shift)
      (show 4 * x.significand + 2 ≤ 4 * 2 ^ 53 - 2 by omega)
    omega
  rcases hfine.eq_or_lt with hgrid | hfiner
  · -- On the grid of the number its significand is the nearest count.
    have hcount : gridCount num den = x.significand := by
      rw [gridCount, hgrid]
      rw [Nat.sub_mul, Nat.add_mul, mul_assoc 4] at *
      have hgapped := Nat.mul_le_mul_right (den * 2 ^ x.shift) hgap
      refine roundHalfEven_eq hstep (by omega) (by omega) fun htie => hend ?_
      omega
    rw [hgrid, hcount]
  · -- On the next finer grid the value is counted up to the power of two above it.
    have hbelow : num * unitsPerOne < 2 ^ 52 * (den * 2 ^ x.shift) := by
      by_contra hge
      exact absurd (le_gridShift hden (not_lt.mp hge)) (not_le.mpr hfiner)
    obtain ⟨hnormal, hquarter⟩ := normal_of_shift_pos (Nat.zero_lt_of_lt hfiner)
    have hleast : x.significand = 2 ^ 52 := by
      refine le_antisymm ?_ hnormal
      by_contra hlarge
      have hmul := Nat.mul_le_mul_right (den * 2 ^ x.shift)
        (show 4 * 2 ^ 52 + 2 ≤ 4 * x.significand - x.lowerGap by omega)
      omega
    obtain ⟨shift, hshift⟩ := Nat.exists_eq_succ_of_ne_zero (Nat.ne_zero_of_lt hfiner)
    rw [hleast, hquarter hleast] at hlower
    rw [hshift] at hfiner hstep hlower hbelow ⊢
    have hhalf : den * 2 ^ (shift + 1) = 2 * (den * 2 ^ shift) := by ring
    rw [hhalf] at hstep hlower hbelow
    have hgrid : gridShift num den = shift := by
      exact le_antisymm (Nat.le_of_lt_succ hfiner) (le_gridShift hden (by omega))
    have hcount : gridCount num den = 2 ^ 53 := by
      rw [gridCount, hgrid]
      exact roundHalfEven_eq (by omega) (by omega) (by omega) fun _ => by decide
    rw [hgrid, hcount, hleast]
    omega

/-- **What lies in the interval of a finite number rounds to it.** -/
theorem nearest_of_covers (hx : x.isFinite = true) (hden : 0 < den)
    (h : x.readInterval.Covers (num / den)) (negative : Bool) :
    nearest negative num den = x.withSign negative := by
  rw [nearest_eq_atPlace, place_of_covers hden h, atPlace_significand hx]

/-! ## Numbers that are not rounded -/

@[simp] theorem nearest_negative (negative : Bool) (num den : ℕ) :
    (nearest negative num den).negative = negative := by
  rw [nearest_eq_atPlace, atPlace]
  split <;> rfl

/-- A value on its grid is not rounded. -/
theorem nearest_units_of_dvd (negative : Bool) (hden : 0 < den)
    (hfinite : (nearest negative num den).isFinite = true)
    (h : den * 2 ^ gridShift num den ∣ num * unitsPerOne) :
    (nearest negative num den).units * den = num * unitsPerOne := by
  obtain ⟨k, hk⟩ := h
  have hstep := gridStep_pos num hden
  have hcount : gridCount num den = k := by
    rw [gridCount, hk, mul_comm]
    exact roundHalfEven_eq hstep (by omega) (by omega) (by omega)
  obtain ⟨-, -, hunits, -⟩ :=
    nearest_of_lt negative hden ((nearest_isFinite_iff negative hden).mp hfinite)
  rw [hunits, hcount, hk]
  ring

/-- **A significand times a power of two is not rounded.** -/
theorem isInteger_ofNat {count j : ℕ} (hcount : count < 2 ^ 53) (hj : j ≤ 960) :
    (ofNat (count * 2 ^ j)).IsInteger (count * 2 ^ j : ℕ) := by
  have hle : count * 2 ^ j ≤ 2 ^ (53 + j) * 1 := by
    rw [mul_one, pow_add]
    exact Nat.mul_le_mul_right _ hcount.le
  have hfinite : (ofNat (count * 2 ^ j)).isFinite = true :=
    nearest_isFinite_of_le false (by omega) Nat.one_pos hle
  have hgrid : gridShift (count * 2 ^ j) 1 ≤ j + 1074 := by
    apply gridShift_le Nat.one_pos
    rw [one_mul, unitsPerOne_eq, mul_assoc, ← pow_add]
    exact Nat.mul_lt_mul_of_pos_right hcount (Nat.two_pow_pos _)
  have hdvd : 1 * 2 ^ gridShift (count * 2 ^ j) 1 ∣ count * 2 ^ j * unitsPerOne := by
    rw [one_mul, unitsPerOne_eq, mul_assoc, ← pow_add]
    exact (pow_dvd_pow 2 hgrid).mul_left count
  have hunits := nearest_units_of_dvd false Nat.one_pos hfinite hdvd
  rw [mul_one] at hunits
  refine ⟨hfinite, ?_⟩
  rw [ofNat, signedUnits_of_nonneg (nearest_negative false _ 1)]
  exact_mod_cast hunits

/-- Up to `2 ^ 53` the natural numbers are floats. -/
theorem isInteger_ofNat_of_le {n : ℕ} (h : n ≤ 2 ^ 53) : (ofNat n).IsInteger n := by
  rcases h.lt_or_eq with hlt | rfl
  · have hinteger := isInteger_ofNat hlt (Nat.zero_le 960)
    rw [pow_zero, mul_one] at hinteger
    exact hinteger
  · have hinteger := isInteger_ofNat (show 1 < 2 ^ 53 by decide) (show 53 ≤ 960 by decide)
    rw [one_mul] at hinteger
    exact hinteger

/-- Up to `10 ^ 22` the powers of ten are floats. -/
theorem isInteger_powerOfTen {k : ℕ} (h : k ≤ 22) : (powerOfTen k).IsInteger (tenTo k) := by
  have hfive : 5 ^ k < 2 ^ 53 :=
    lt_of_le_of_lt (pow_le_pow_right₀ (by decide) h) (by decide)
  have hinteger := isInteger_ofNat hfive (show k ≤ 960 by omega)
  rw [← mul_pow] at hinteger
  exact hinteger

/-- The units of a natural number that is a float. -/
theorem units_of_isInteger {n : ℕ} (h : (ofNat n).IsInteger n) :
    (ofNat n).units = n * unitsPerOne := by
  have hunits := h.2
  rw [ofNat, signedUnits_of_nonneg (nearest_negative false n 1)] at hunits
  exact_mod_cast hunits

end Binary64
end Aggregation
