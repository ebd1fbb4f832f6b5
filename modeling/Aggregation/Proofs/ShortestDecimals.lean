import Aggregation.Proofs.ReadIntervals
import Mathlib.Algebra.Order.Field.Power
import Mathlib.Tactic.FieldSimp

/-!
# The shortest decimal rounds to its number

The search for a short decimal ends on the grid of seventeen digits at the latest: its step is
less than the distance of the number to either end of its interval. Whatever grid it ends on,
the decimal that is found lies in the interval, so it rounds to the number. Its digits fit 64
bits, and if the number has a fraction, so has the decimal.

## Main definitions

* `ScientificDecimal.value` - the rational number that a decimal is.

## Main results

* `Binary64.covers_shortest` - the shortest decimal lies in the interval of the number.
* `Binary64.shortest_exponent_neg` - the decimal of a number with a fraction has one.
* `Binary64.nearest_shortest` - the shortest decimal rounds to the number.
-/

namespace Aggregation

/-! ## Decimals -/

theorem tenTo_cast (n : ℕ) : ((tenTo n : ℕ) : ℚ) = 10 ^ n := by
  simp [tenTo]

/-- A power of ten as a ratio of natural numbers. -/
theorem ten_zpow_eq (exponent : ℤ) :
    (10 : ℚ) ^ exponent = (tenTo exponent.toNat : ℕ) / (tenTo (-exponent).toNat : ℕ) := by
  rw [tenTo_cast, tenTo_cast]
  rcases le_total 0 exponent with hpos | hneg
  · obtain ⟨n, rfl⟩ := Int.eq_ofNat_of_zero_le hpos
    simp
  · obtain ⟨n, hn⟩ := Int.eq_ofNat_of_zero_le (Int.neg_nonneg.mpr hneg)
    obtain rfl : exponent = -n := by omega
    simp

theorem ten_zpow_pos (exponent : ℤ) : (0 : ℚ) < 10 ^ exponent := zpow_pos (by norm_num) _

namespace ScientificDecimal

/-- The rational number that a decimal is. -/
def value (d : ScientificDecimal) : ℚ := d.digits * 10 ^ d.exponent

/-- Zeros moved into the exponent leave the number as it is. -/
theorem value_normalize (digits : ℕ) (exponent : ℤ) :
    (normalize digits exponent).value = digits * 10 ^ exponent ∧
      exponent ≤ (normalize digits exponent).exponent := by
  induction digits, exponent using normalize.induct with
  | case1 digits exponent h ih =>
    rw [normalize, if_pos h]
    refine ⟨?_, by omega⟩
    have hdigits : digits / 10 * 10 = digits := Nat.div_mul_cancel (Nat.dvd_of_mod_eq_zero h.2)
    rw [ih.1, zpow_add_one₀ (by norm_num), mul_comm ((10 : ℚ) ^ exponent), ← mul_assoc]
    exact_mod_cast congrArg (fun n : ℕ => (n : ℚ) * 10 ^ exponent) hdigits
  | case2 digits exponent h =>
    rw [normalize, if_neg h]
    exact ⟨rfl, le_rfl⟩

end ScientificDecimal

theorem digitCount_pos (n : ℕ) : 0 < digitCount n := by
  rw [digitCount]
  split <;> omega

/-- The decimal digits of a number locate it between powers of ten. -/
theorem digitCount_bounds {n : ℕ} (h : 0 < n) :
    10 ^ (digitCount n - 1) ≤ n ∧ n < 10 ^ digitCount n := by
  induction n using digitCount.induct with
  | case1 n hlt =>
    rw [digitCount, if_pos hlt]
    omega
  | case2 n hge ih =>
    obtain ⟨hle, hlt⟩ := ih (by omega)
    rw [digitCount, if_neg hge, Nat.add_sub_cancel]
    constructor
    · obtain ⟨count, hcount⟩ := Nat.exists_eq_succ_of_ne_zero (digitCount_pos (n / 10)).ne'
      rw [hcount, Nat.succ_sub_one] at hle
      rw [hcount, pow_succ]
      omega
    · rw [pow_succ]
      omega

namespace Binary64

variable {x : Binary64} {exponent : ℤ} {d : ScientificDecimal}

/-- The magnitude of a finite number. -/
def magnitude (x : Binary64) : ℚ := x.units / unitsPerOne

theorem unitsPerOne_cast_pos : (0 : ℚ) < unitsPerOne := by exact_mod_cast unitsPerOne_pos

/-- The leading digit of a positive number stands at its exponent. -/
theorem leadingExponent_bounds (h : 0 < x.units) :
    10 ^ x.leadingExponent ≤ x.magnitude ∧ x.magnitude < 10 ^ (x.leadingExponent + 1) := by
  have hscale : unitsPerOne ≤ tenTo 324 := by decide +kernel
  have hpos : 0 < x.units * tenTo 324 / unitsPerOne := by
    refine Nat.div_pos (hscale.trans ?_) unitsPerOne_pos
    exact Nat.le_mul_of_pos_left _ h
  obtain ⟨hle, hlt⟩ := digitCount_bounds hpos
  obtain ⟨count, hcount⟩ :=
    Nat.exists_eq_succ_of_ne_zero (digitCount_pos (x.units * tenTo 324 / unitsPerOne)).ne'
  rw [hcount, Nat.succ_sub_one, Nat.le_div_iff_mul_le unitsPerOne_pos] at hle
  rw [hcount, Nat.div_lt_iff_lt_mul unitsPerOne_pos] at hlt
  have hleading : x.leadingExponent = (count : ℤ) - 324 := by
    rw [leadingExponent, hcount]
    push_cast
    ring
  have hone := unitsPerOne_cast_pos
  have htens : (0 : ℚ) < 10 ^ 324 := by positivity
  rw [hleading, magnitude, le_div_iff₀ hone, div_lt_iff₀ hone, sub_add_eq_add_sub,
    zpow_sub₀ (by norm_num), zpow_sub₀ (by norm_num), div_mul_eq_mul_div, div_mul_eq_mul_div]
  have hlower : ((10 ^ count * unitsPerOne : ℕ) : ℚ) ≤ (x.units * tenTo 324 : ℕ) := by
    exact_mod_cast hle
  have hupper : ((x.units * tenTo 324 : ℕ) : ℚ) < (10 ^ (count + 1) * unitsPerOne : ℕ) := by
    exact_mod_cast hlt
  rw [Nat.cast_mul, Nat.cast_mul, tenTo_cast] at hlower hupper
  constructor
  · exact (div_le_iff₀ (by exact_mod_cast htens)).mpr (by exact_mod_cast hlower)
  · exact (lt_div_iff₀ (by exact_mod_cast htens)).mpr (by exact_mod_cast hupper)

/-! ## The search -/

/-- **A decimal that is found lies in the interval of the number**, on the grid or on a coarser
one. -/
theorem covers_of_onGrid? (h : x.onGrid? exponent = some d) :
    x.readInterval.Covers d.value ∧ exponent ≤ d.exponent := by
  obtain ⟨k, hk, rfl⟩ := Option.map_eq_some_iff.mp h
  have hscale : 0 < x.readInterval.scale := Nat.mul_pos (by decide) unitsPerOne_pos
  have hfactor := tenTo_pos (-exponent).toNat
  obtain ⟨hvalue, hexponent⟩ := ScientificDecimal.value_normalize k exponent
  refine ⟨?_, hexponent⟩
  have hcovers := (ReadInterval.contains_iff (Nat.mul_pos hscale hfactor)).mp
    (ReadInterval.contains_of_multiple? hk)
  rw [ReadInterval.covers_refine hfactor] at hcovers
  have hscale' : (x.readInterval.scale : ℚ) ≠ 0 := by exact_mod_cast hscale.ne'
  have hfactor' : ((tenTo (-exponent).toNat : ℕ) : ℚ) ≠ 0 := by exact_mod_cast hfactor.ne'
  have hmultiple : ((k * (x.readInterval.scale * tenTo exponent.toNat) : ℕ) : ℚ) /
      (x.readInterval.refine (tenTo (-exponent).toNat)).scale = k * 10 ^ exponent := by
    rw [ten_zpow_eq, ReadInterval.refine]
    push_cast
    field_simp
  rw [hmultiple] at hcovers
  rw [hvalue]
  exact hcovers

/-- A decimal is found on a grid whose step is less than the interval reaches to either side. -/
theorem exists_onGrid? (hpos : 0 < x.units)
    (h : 10 ^ exponent * (2 * unitsPerOne) < (x.lowerGap * 2 ^ x.shift : ℚ)) :
    ∃ d, x.onGrid? exponent = some d := by
  have hfactor := tenTo_pos (-exponent).toNat
  have hstep : 2 * unitsPerOne * tenTo exponent.toNat <
      x.lowerGap * 2 ^ x.shift * tenTo (-exponent).toNat := by
    rw [ten_zpow_eq, div_mul_eq_mul_div, div_lt_iff₀ (by exact_mod_cast hfactor)] at h
    have hcast : ((tenTo exponent.toNat * (2 * unitsPerOne) : ℕ) : ℚ) <
        (x.lowerGap * 2 ^ x.shift * tenTo (-exponent).toNat : ℕ) := by exact_mod_cast h
    rw [mul_comm (2 * unitsPerOne)]
    exact_mod_cast hcast
  have hsignificand : 0 < x.significand := Nat.pos_of_mul_pos_right hpos
  have hgap := Nat.mul_le_mul_right (2 ^ x.shift * tenTo (-exponent).toNat) x.lowerGap_le
  have hlow : x.lowerGap * (2 ^ x.shift * tenTo (-exponent).toNat) ≤
      4 * x.significand * (2 ^ x.shift * tenTo (-exponent).toNat) :=
    Nat.mul_le_mul_right _ (x.lowerGap_le.trans (by omega))
  obtain ⟨k, hk⟩ : ∃ k, (x.readInterval.refine (tenTo (-exponent).toNat)).multiple?
      (x.readInterval.scale * tenTo exponent.toNat) = some k := by
    apply ReadInterval.exists_multiple?
    · exact Nat.mul_pos (Nat.mul_pos (by decide) unitsPerOne_pos) (tenTo_pos _)
    · change 2 * ((4 * x.significand - x.lowerGap) * 2 ^ x.shift * tenTo (-exponent).toNat) +
        4 * unitsPerOne * tenTo exponent.toNat <
          2 * (4 * (x.significand * 2 ^ x.shift) * tenTo (-exponent).toNat)
      rw [mul_assoc (4 * x.significand - _), Nat.sub_mul]
      rw [mul_assoc] at hstep
      have hcenter : 4 * (x.significand * 2 ^ x.shift) * tenTo (-exponent).toNat =
          4 * x.significand * (2 ^ x.shift * tenTo (-exponent).toNat) := by ring
      rw [hcenter]
      generalize unitsPerOne = one at *
      linarith [Nat.sub_add_cancel hlow]
    · change 2 * (4 * (x.significand * 2 ^ x.shift) * tenTo (-exponent).toNat) +
        4 * unitsPerOne * tenTo exponent.toNat <
          2 * ((4 * x.significand + 2) * 2 ^ x.shift * tenTo (-exponent).toNat)
      generalize unitsPerOne = one at *
      linarith
  exact ⟨_, by rw [onGrid?, hk, Option.map_some]⟩

/-- The step of the grid of seventeen digits is short enough. -/
theorem exists_onGrid?_last (hpos : 0 < x.units) :
    ∃ d, x.onGrid? (x.leadingExponent - 16) = some d := by
  apply exists_onGrid? hpos
  have hone := unitsPerOne_cast_pos
  have hleading := (leadingExponent_bounds hpos).1
  rw [magnitude, le_div_iff₀ hone] at hleading
  have hunits : (x.units : ℚ) = x.significand * 2 ^ x.shift := by
    rw [units, Nat.cast_mul, twoTo_eq, Nat.cast_pow, Nat.cast_ofNat]
  -- The significand is less than `10 ^ 16` half steps, or than that many quarters.
  have hsignificand : 2 * x.significand < x.lowerGap * 10 ^ 16 := by
    have hlt := x.significand_lt
    rw [lowerGap]
    split
    · rename_i hleast
      rw [significand, if_neg (by omega), hleast.1]
      decide
    · omega
  have hcast : (2 * x.significand : ℚ) < x.lowerGap * 10 ^ 16 := by exact_mod_cast hsignificand
  have hshift : (0 : ℚ) < 2 ^ x.shift := by positivity
  rw [zpow_sub₀ (by norm_num), div_mul_eq_mul_div, div_lt_iff₀ (by norm_num)]
  calc (10 : ℚ) ^ x.leadingExponent * (2 * unitsPerOne)
      = 2 * (10 ^ x.leadingExponent * unitsPerOne) := by ring
    _ ≤ 2 * (x.significand * 2 ^ x.shift) := by
      rw [← hunits]
      exact mul_le_mul_of_nonneg_left hleading (by norm_num)
    _ = 2 * x.significand * 2 ^ x.shift := by ring
    _ < x.lowerGap * 10 ^ 16 * 2 ^ x.shift := mul_lt_mul_of_pos_right hcast hshift
    _ = x.lowerGap * 2 ^ x.shift * 10 ^ (16 : ℤ) := by rw [zpow_ofNat]; ring

/-- **The shortest decimal is found**, on a grid of at most seventeen digits. -/
theorem exists_onGrid?_shortest (hpos : 0 < x.units) :
    ∃ i : ℕ, i < 17 ∧ x.onGrid? (x.leadingExponent - i) = some x.shortest := by
  obtain ⟨last, hlast⟩ := exists_onGrid?_last hpos
  have hsome : ((List.range 17).findSome? fun (i : ℕ) =>
      x.onGrid? (x.leadingExponent - i)).isSome = true := by
    rw [List.findSome?_isSome_iff]
    refine ⟨16, by decide, ?_⟩
    exact Option.isSome_of_eq_some hlast
  obtain ⟨d, hd⟩ := Option.isSome_iff_exists.mp hsome
  obtain ⟨i, hi, hgrid⟩ := List.exists_of_findSome?_eq_some hd
  refine ⟨i, List.mem_range.mp hi, ?_⟩
  rw [hgrid, shortest, hd, Option.getD_some]

/-! ## The shortest decimal -/

/-- **The shortest decimal lies in the interval of its number.** -/
theorem covers_shortest (hpos : 0 < x.units) : x.readInterval.Covers x.shortest.value := by
  obtain ⟨i, -, h⟩ := exists_onGrid?_shortest hpos
  exact (covers_of_onGrid? h).1

/-- Its last digit stands at most sixteen places behind the leading digit of the number. -/
theorem leadingExponent_le (hpos : 0 < x.units) :
    x.leadingExponent - 16 ≤ x.shortest.exponent := by
  obtain ⟨i, hi, h⟩ := exists_onGrid?_shortest hpos
  have hgrid := (covers_of_onGrid? h).2
  omega

/-- No number is less than `10 ^ -324`, so no decimal goes farther than `340` places. -/
theorem le_shortest_exponent (hpos : 0 < x.units) : -340 ≤ x.shortest.exponent := by
  have hlast := leadingExponent_le hpos
  have hcount := digitCount_pos (x.units * tenTo 324 / unitsPerOne)
  rw [leadingExponent] at hlast
  omega

theorem shortest_digits_pos (hpos : 0 < x.units) : 0 < x.shortest.digits := by
  have hsignificand : 0 < x.significand := Nat.pos_of_mul_pos_right hpos
  have hgap := x.lowerGap_le
  have hlower : 0 < x.readInterval.lower := by
    rw [readInterval_lower]
    exact Nat.mul_pos (by omega) (Nat.two_pow_pos _)
  have hle := (covers_shortest hpos).lower_le
  rw [Nat.pos_iff_ne_zero]
  intro hzero
  rw [ScientificDecimal.value, hzero, Nat.cast_zero, zero_mul, zero_mul] at hle
  exact absurd (by exact_mod_cast hle) (Nat.not_le_of_lt hlower)

/-- The interval ends below twice the number. -/
theorem value_shortest_lt (hpos : 0 < x.units) : x.shortest.value < 2 * x.magnitude := by
  have hone := unitsPerOne_cast_pos
  have hsignificand : 0 < x.significand := Nat.pos_of_mul_pos_right hpos
  have hge := (covers_shortest hpos).le_upper
  have hupper : x.readInterval.upper < 8 * x.units := by
    rw [readInterval_upper, units, ← mul_assoc]
    exact Nat.mul_lt_mul_of_pos_right (by omega) (Nat.two_pow_pos _)
  have hupper' : (x.readInterval.upper : ℚ) < (8 * x.units : ℕ) := by exact_mod_cast hupper
  rw [readInterval_scale] at hge
  rw [magnitude, ← mul_div_assoc, lt_div_iff₀ hone]
  push_cast at hge hupper'
  linarith

/-- The digits fit 64 bits. -/
theorem shortest_digits_lt (hpos : 0 < x.units) : x.shortest.digits < 2 ^ 64 := by
  have hlast := leadingExponent_le hpos
  have hvalue := value_shortest_lt hpos
  have hmagnitude := (leadingExponent_bounds hpos).2
  have hstep : (10 : ℚ) ^ (x.leadingExponent - 16) ≤ 10 ^ x.shortest.exponent :=
    zpow_le_zpow_right₀ (by norm_num) hlast
  have hpow := ten_zpow_pos (x.leadingExponent - 16)
  have hscale : (10 : ℚ) ^ (x.leadingExponent + 1) = 10 ^ 17 * 10 ^ (x.leadingExponent - 16) := by
    rw [← zpow_natCast, ← zpow_add₀ (by norm_num)]
    congr 1
    push_cast
    ring
  have hdigits : (x.shortest.digits : ℚ) * 10 ^ (x.leadingExponent - 16) <
      2 * 10 ^ 17 * 10 ^ (x.leadingExponent - 16) := by
    calc (x.shortest.digits : ℚ) * 10 ^ (x.leadingExponent - 16)
        ≤ x.shortest.digits * 10 ^ x.shortest.exponent :=
          mul_le_mul_of_nonneg_left hstep (Nat.cast_nonneg _)
      _ < 2 * x.magnitude := hvalue
      _ < 2 * 10 ^ (x.leadingExponent + 1) := by linarith
      _ = 2 * 10 ^ 17 * 10 ^ (x.leadingExponent - 16) := by rw [hscale]; ring
  have hlt := lt_of_mul_lt_mul_right hdigits hpow.le
  have hnat : x.shortest.digits < 2 * 10 ^ 17 := by exact_mod_cast hlt
  omega

theorem units_pos_of_fraction (hfraction : x.units % unitsPerOne ≠ 0) : 0 < x.units := by
  rw [Nat.pos_iff_ne_zero]
  intro hzero
  exact hfraction (by rw [hzero, Nat.zero_mod])

/-- The significand of a number with a fraction counts halves, or less. -/
theorem shift_lt_of_fraction (hfraction : x.units % unitsPerOne ≠ 0) : x.shift < 1074 := by
  by_contra hge
  have hdvd : unitsPerOne ∣ x.units := by
    rw [unitsPerOne_eq]
    exact (pow_dvd_pow 2 (not_lt.mp hge)).mul_left _
  exact hfraction (Nat.mod_eq_zero_of_dvd hdvd)

/-- **The decimal of a number with a fraction has one.** An integer in the interval would be
small enough not to be rounded, so the number would be that integer. -/
theorem shortest_exponent_neg (hx : x.isFinite = true)
    (hfraction : x.units % unitsPerOne ≠ 0) : x.shortest.exponent < 0 := by
  by_contra hexponent
  obtain ⟨zeros, hzeros⟩ := Int.eq_ofNat_of_zero_le (not_lt.mp hexponent)
  have hcovers := covers_shortest (units_pos_of_fraction hfraction)
  have hvalue : x.shortest.value = ((x.shortest.digits * 10 ^ zeros : ℕ) : ℚ) / (1 : ℕ) := by
    rw [ScientificDecimal.value, hzeros]
    push_cast
    simp
  rw [hvalue] at hcovers
  have hround := nearest_of_covers hx Nat.one_pos hcovers false
  obtain ⟨-, hupper, -⟩ := (covers_div_iff Nat.one_pos).mp hcovers
  have hsmall : x.shortest.digits * 10 ^ zeros < 2 ^ 53 := by
    obtain ⟨half, hhalf⟩ : ∃ half : ℕ, 2 ^ 1073 = half := ⟨_, rfl⟩
    have hone : unitsPerOne = 2 * half := by rw [unitsPerOne_eq, pow_succ, hhalf, mul_comm]
    have hshift : 2 ^ x.shift ≤ half := by
      rw [← hhalf]
      exact pow_le_pow_right₀ (by decide) (Nat.le_of_lt_succ (shift_lt_of_fraction hfraction))
    have hlt := x.significand_lt
    rw [readInterval_upper, hone, mul_one] at hupper
    by_contra hlarge
    have hlow := Nat.mul_le_mul_right half (not_lt.mp hlarge)
    have hhigh := Nat.mul_le_mul (show 4 * x.significand + 2 ≤ 4 * 2 ^ 53 by omega) hshift
    have hpow : 0 < half := by
      rw [← hhalf]
      exact pow_pos (by decide) _
    have hbetween : 8 * (x.shortest.digits * 10 ^ zeros * half) ≤ 4 * 2 ^ 53 * half := by
      calc 8 * (x.shortest.digits * 10 ^ zeros * half)
          = 4 * (x.shortest.digits * 10 ^ zeros * (2 * half)) := by ring
        _ ≤ (4 * x.significand + 2) * 2 ^ x.shift := hupper
        _ ≤ 4 * 2 ^ 53 * half := hhigh
    omega
  have hinteger := isInteger_ofNat hsmall (Nat.zero_le 960)
  rw [pow_zero, mul_one, ofNat, hround] at hinteger
  have hunits : (x.units : ℤ) = (x.shortest.digits * 10 ^ zeros : ℕ) * unitsPerOne := by
    rw [← hinteger.2, signedUnits_of_nonneg rfl]
    rfl
  apply hfraction
  rw [show x.units = x.shortest.digits * 10 ^ zeros * unitsPerOne by exact_mod_cast hunits]
  exact Nat.mul_mod_left _ _

/-- The decimal places of the shortest decimal. -/
def decimalPlaces (x : Binary64) : ℕ := (-x.shortest.exponent).toNat

/-- With a fraction, the shortest decimal is its digits over a power of ten. -/
theorem value_shortest_eq (hx : x.isFinite = true) (hfraction : x.units % unitsPerOne ≠ 0) :
    x.shortest.value = x.shortest.digits / 10 ^ x.decimalPlaces := by
  have hneg := shortest_exponent_neg hx hfraction
  rw [ScientificDecimal.value, ten_zpow_eq, Int.toNat_of_nonpos hneg.le, tenTo_cast, tenTo_cast,
    pow_zero, mul_one_div]
  rfl

/-- **The shortest decimal rounds to its number.** -/
theorem nearest_shortest (hx : x.isFinite = true) (hfraction : x.units % unitsPerOne ≠ 0)
    (negative : Bool) :
    nearest negative x.shortest.digits (tenTo x.decimalPlaces) = x.withSign negative := by
  have hcovers := covers_shortest (units_pos_of_fraction hfraction)
  rw [value_shortest_eq hx hfraction, ← tenTo_cast] at hcovers
  exact nearest_of_covers hx (tenTo_pos _) hcovers negative

end Binary64
end Aggregation
