import Aggregation.Binary64.Arithmetic
import Aggregation.Proofs.RoundingErrors

/-!
# How often a computed number was rounded

Rounding changes a value by a factor of at most `1 + 2 ^ -53`, up or down, as long as it neither
overflows nor underflows. So the error of a computed number is counted in roundings: an operation
adds up the roundings of its operands, a sum of nonnegative numbers takes the larger count, and
the operation itself rounds once more. Rounding to an integer is the exception: the nearest
integer may be twice as far off, but it is right when the number is off by less than a half.

## Main definitions

* `Binary64.Moderate` - the values that are far from overflow and underflow.
* `Binary64.Rounded` - a nonnegative number that is a value, up to so many roundings.

## Main results

* `Binary64.Rounded.nearest` - rounding once more.
* `Binary64.Rounded.add`, `Binary64.Rounded.mul`, `Binary64.Rounded.div`,
  `Binary64.Rounded.round` - the count of each operation.
* `Binary64.Rounded.abs_sub_le` - the relative error of so many roundings.
-/

namespace Aggregation.Binary64

variable {x y : Binary64} {num den k l : ℕ} {v w : ℚ}

/-- The factor of one rounding. -/
def spread : ℚ := 1 + roundoff

theorem one_le_spread : 1 ≤ spread := le_add_of_nonneg_right roundoff_pos.le

theorem spread_pos : 0 < spread := one_pos.trans_le one_le_spread

theorem spread_pow_pos (k : ℕ) : 0 < spread ^ k := pow_pos spread_pos k

theorem one_le_spread_pow (k : ℕ) : 1 ≤ spread ^ k := one_le_pow₀ one_le_spread

theorem spread_pow_le (h : k ≤ l) : spread ^ k ≤ spread ^ l := pow_le_pow_right₀ one_le_spread h

/-- Forty roundings lose no bit. -/
theorem spread_pow_le_two (h : k ≤ 40) : spread ^ k ≤ 2 := by
  refine (spread_pow_le h).trans ?_
  rw [spread, roundoff]
  norm_num

/-! ## One rounding -/

/-- Half a step is a small fraction of `2 ^ 52` steps and more. -/
theorem half_step_le {step count one : ℚ} (hone : 0 < one) (hstep : 0 < step)
    (hcount : 2 ^ 52 ≤ count) :
    step * (1 / (2 * one)) ≤ roundoff * (count * step / one) := by
  rw [roundoff, mul_one_div, one_div_mul_eq_div, div_div,
    div_le_div_iff₀ (by positivity) (by positivity)]
  have hscaled : 2 ^ 52 * (step * one) ≤ count * (step * one) :=
    mul_le_mul_of_nonneg_right hcount (by positivity)
  linarith

/-- A normal value has at least `2 ^ 52` steps of its grid. -/
theorem le_gridCount_of_normal (hden : 0 < den) (h : 2 ^ 52 * den ≤ num * unitsPerOne) :
    2 ^ 52 ≤ gridCount num den := by
  rcases le_gridCount num hden with hnormal | hzero
  · exact hnormal
  · -- On the grid of the units the exact value is itself at least so many steps.
    obtain ⟨-, hge⟩ := roundHalfEven_bounds (num * unitsPerOne) (gridStep_pos num hden)
    rw [← gridCount, hzero, pow_zero, mul_one] at hge
    by_contra hlt
    have hmul := Nat.mul_le_mul_right den (show gridCount num den + 1 ≤ 2 ^ 52 by omega)
    rw [Nat.add_one_mul] at hmul
    omega

/-- The half step is a small fraction of a normal result, too. -/
theorem step_le_magnitude (negative : Bool) (hden : 0 < den)
    (hfinite : (nearest negative num den).isFinite = true)
    (h : 2 ^ 52 * den ≤ num * unitsPerOne) :
    2 ^ gridShift num den * halfUnit ≤ roundoff * (nearest negative num den).magnitude := by
  obtain ⟨-, -, hunits, -⟩ :=
    nearest_of_lt negative hden ((nearest_isFinite_iff negative hden).mp hfinite)
  rw [magnitude, hunits, halfUnit, Nat.cast_mul, Nat.cast_pow, Nat.cast_ofNat]
  exact half_step_le unitsPerOne_cast_pos (by positivity)
    (by exact_mod_cast le_gridCount_of_normal hden h)

/-- **A rounding changes a normal value by at most the factor of one**, up or down. -/
theorem nearest_le_mul_spread (negative : Bool) (hden : 0 < den)
    (hfinite : (nearest negative num den).isFinite = true)
    (h : 2 ^ 52 * den ≤ num * unitsPerOne) :
    (nearest negative num den).magnitude ≤ num / den * spread ∧
      (num / den : ℚ) ≤ (nearest negative num den).magnitude * spread := by
  have hstep := abs_nearest_sub_le_step negative hden hfinite
  have hup := (abs_le.mp (hstep.trans (step_le_of_normal hden h))).2
  have hdown := (abs_le.mp (hstep.trans (step_le_magnitude negative hden hfinite h))).1
  rw [spread]
  constructor <;> linarith

/-- The value is far from overflow and from underflow. -/
def Moderate (v : ℚ) : Prop := 1 / 2 ^ 100 ≤ v ∧ v ≤ 2 ^ 100

theorem Moderate.pos (h : Moderate v) : 0 < v := lt_of_lt_of_le (by positivity) h.1

/-- So are the ratios of natural numbers of at most a hundred bits. -/
theorem moderate_div (hnum : 0 < num) (hnum' : num ≤ 2 ^ 100) (hden : 0 < den)
    (hden' : den ≤ 2 ^ 100) : Moderate (num / den) := by
  have hpos : (0 : ℚ) < den := by exact_mod_cast hden
  have hone : 2 ^ 100 ≤ num * 2 ^ 100 := Nat.le_mul_of_pos_left _ hnum
  have hone' : 2 ^ 100 ≤ 2 ^ 100 * den := Nat.le_mul_of_pos_right _ hden
  constructor
  · rw [div_le_div_iff₀ (by positivity) hpos, one_mul]
    exact_mod_cast hden'.trans hone
  · rw [div_le_iff₀ hpos]
    exact_mod_cast hnum'.trans hone'

theorem moderate_natCast {n : ℕ} (hpos : 0 < n) (hn : n ≤ 2 ^ 100) : Moderate n := by
  have h := moderate_div hpos hn Nat.one_pos (by norm_num)
  rwa [Nat.cast_one, div_one] at h

/-! ## Counting roundings -/

/-- The number is nonnegative, and the value up to so many roundings. -/
structure Rounded (x : Binary64) (k : ℕ) (v : ℚ) : Prop where
  finite : x.isFinite = true
  nonneg : x.negative = false
  le : x.magnitude ≤ v * spread ^ k
  ge : v ≤ x.magnitude * spread ^ k

theorem magnitude_nonneg (x : Binary64) : 0 ≤ x.magnitude :=
  div_nonneg (Nat.cast_nonneg _) (Nat.cast_nonneg _)

namespace Rounded

/-- What is right after some roundings is right after more of them. -/
theorem mono (h : x.Rounded k v) (hkl : k ≤ l) : x.Rounded l v where
  finite := h.finite
  nonneg := h.nonneg
  le := by
    have hv : 0 ≤ v :=
      nonneg_of_mul_nonneg_left ((magnitude_nonneg x).trans h.le) (spread_pow_pos k)
    exact h.le.trans (mul_le_mul_of_nonneg_left (spread_pow_le hkl) hv)
  ge := h.ge.trans (mul_le_mul_of_nonneg_left (spread_pow_le hkl) (magnitude_nonneg x))

/-- The relative error of so many roundings. -/
theorem abs_sub_le (h : x.Rounded k v) : |x.magnitude - v| ≤ (spread ^ k - 1) * v := by
  have hpos := spread_pow_pos k
  have hone := one_le_spread_pow k
  have hle := h.le
  have hge := h.ge
  have hx := magnitude_nonneg x
  rw [abs_le]
  constructor
  · nlinarith
  · linarith

theorem pos (h : x.Rounded k v) (hv : 0 < v) : 0 < x.units := by
  have hx : 0 < x.magnitude := pos_of_mul_pos_left (hv.trans_le h.ge) (spread_pow_pos k).le
  rw [magnitude] at hx
  exact_mod_cast (div_pos_iff_of_pos_right unitsPerOne_cast_pos).mp hx

/-- **One more rounding**, of a ratio that is the value up to so many of them. -/
theorem nearest (hv : Moderate v) (hk : k ≤ 40) (hden : 0 < den)
    (hle : (num / den : ℚ) ≤ v * spread ^ k) (hge : v ≤ num / den * spread ^ k) :
    (nearest false num den).Rounded (k + 1) v := by
  have htwo := spread_pow_le_two hk
  have hpos : (0 : ℚ) < den := by exact_mod_cast hden
  have hratio : (0 : ℚ) ≤ num / den := by positivity
  have hlow : (den : ℚ) ≤ num * 2 ^ 101 := by
    have h := hv.1.trans (hge.trans (mul_le_mul_of_nonneg_left htwo hratio))
    rw [div_mul_eq_mul_div, div_le_div_iff₀ (by positivity) hpos] at h
    linarith
  have hhigh : (num : ℚ) ≤ 2 ^ 101 * den := by
    have h := hle.trans (mul_le_mul hv.2 htwo (spread_pow_pos k).le (by positivity))
    rw [div_le_iff₀ hpos] at h
    linarith
  have hfinite : (Binary64.nearest false num den).isFinite = true :=
    nearest_isFinite_of_le false (show 101 ≤ 1022 by decide) hden (by exact_mod_cast hhigh)
  have hnormal : 2 ^ 52 * den ≤ num * unitsPerOne := by
    calc 2 ^ 52 * den ≤ 2 ^ 52 * (num * 2 ^ 101) := Nat.mul_le_mul_left _ (by exact_mod_cast hlow)
      _ = num * 2 ^ 153 := by ring
      _ ≤ num * unitsPerOne := by
        rw [unitsPerOne_eq]
        exact Nat.mul_le_mul_left _ (pow_le_pow_right₀ (by decide) (by decide))
  obtain ⟨hup, hdown⟩ := nearest_le_mul_spread false hden hfinite hnormal
  refine ⟨hfinite, nearest_negative _ _ _, hup.trans ?_, hge.trans ?_⟩
  · rw [pow_succ, ← mul_assoc]
    exact mul_le_mul_of_nonneg_right hle spread_pos.le
  · rw [pow_succ', ← mul_assoc]
    exact mul_le_mul_of_nonneg_right hdown (spread_pow_pos k).le

/-- A natural number that is a float is not rounded. -/
theorem of_isInteger {n : ℕ} (h : (ofNat n).IsInteger n) : (ofNat n).Rounded 0 n := by
  have hone := unitsPerOne_cast_pos
  have hmagnitude : (ofNat n).magnitude = n := by
    rw [magnitude, units_of_isInteger h, Nat.cast_mul, mul_div_cancel_right₀ _ hone.ne']
  refine ⟨h.1, nearest_negative _ _ _, ?_, ?_⟩ <;> rw [pow_zero, mul_one, hmagnitude]

/-- Any other is rounded once. -/
theorem ofNat {n : ℕ} (hn : n ≤ 2 ^ 100) : (ofNat n).Rounded 1 n := by
  rcases Nat.eq_zero_or_pos n with rfl | hpos
  · exact (of_isInteger (isInteger_ofNat_of_le (Nat.zero_le _))).mono (Nat.zero_le 1)
  · have hvalue : ((n : ℕ) / (1 : ℕ) : ℚ) = n := by rw [Nat.cast_one, div_one]
    refine nearest (moderate_natCast hpos hn) (Nat.zero_le 40) Nat.one_pos ?_ ?_ <;>
      rw [pow_zero, mul_one, hvalue]

/-- A sum of nonnegative numbers takes the larger count, and rounds once. -/
theorem add (hx : x.Rounded k v) (hy : y.Rounded k w) (hsum : Moderate (v + w)) (hk : k ≤ 40) :
    (x + y).Rounded (k + 1) (v + w) := by
  have heq : x + y = Binary64.nearest false (x.units + y.units) unitsPerOne := by
    have hsign : ¬ (x.units + y.units : ℤ) < 0 := by omega
    rw [show x + y = Binary64.add x y from rfl, Binary64.add, signedUnits_of_nonneg hx.nonneg,
      signedUnits_of_nonneg hy.nonneg, hx.nonneg, Bool.false_and, decide_eq_false hsign, ite_self]
    rfl
  have hvalue : ((x.units + y.units : ℕ) / unitsPerOne : ℚ) = x.magnitude + y.magnitude := by
    rw [Nat.cast_add, add_div, magnitude, magnitude]
  rw [heq]
  refine nearest hsum hk unitsPerOne_pos ?_ ?_ <;> rw [hvalue, add_mul]
  · exact add_le_add hx.le hy.le
  · exact add_le_add hx.ge hy.ge

/-- A product takes both counts, and rounds once. -/
theorem mul (hx : x.Rounded k v) (hy : y.Rounded l w) (hv : 0 ≤ v) (hw : 0 ≤ w)
    (hproduct : Moderate (v * w)) (hk : k + l ≤ 40) : (x * y).Rounded (k + l + 1) (v * w) := by
  have heq : x * y =
      Binary64.nearest false (x.units * y.units) (unitsPerOne * unitsPerOne) := by
    rw [show x * y = Binary64.mul x y from rfl, Binary64.mul, hx.nonneg, hy.nonneg]
    rfl
  have hvalue : ((x.units * y.units : ℕ) / (unitsPerOne * unitsPerOne : ℕ) : ℚ) =
      x.magnitude * y.magnitude := by
    rw [Nat.cast_mul, Nat.cast_mul, magnitude, magnitude, div_mul_div_comm]
  rw [heq]
  refine nearest hproduct hk (Nat.mul_pos unitsPerOne_pos unitsPerOne_pos) ?_ ?_ <;>
    rw [hvalue, pow_add, mul_mul_mul_comm]
  · exact mul_le_mul hx.le hy.le (magnitude_nonneg y) (mul_nonneg hv (spread_pow_pos k).le)
  · exact mul_le_mul hx.ge hy.ge hw (mul_nonneg (magnitude_nonneg x) (spread_pow_pos k).le)

/-- A quotient takes both counts, and rounds once. -/
theorem div (hx : x.Rounded k v) (hy : y.Rounded l w) (hv : 0 ≤ v) (hw : 0 < w)
    (hquotient : Moderate (v / w)) (hk : k + l ≤ 40) : (x / y).Rounded (k + l + 1) (v / w) := by
  have heq : x / y = Binary64.nearest false x.units y.units := by
    rw [show x / y = Binary64.div x y from rfl, Binary64.div, hx.nonneg, hy.nonneg]
    rfl
  have hone := unitsPerOne_cast_pos
  have hunits := hy.pos hw
  have hvalue : (x.units / y.units : ℚ) = x.magnitude / y.magnitude := by
    rw [magnitude, magnitude, div_div_div_cancel_right₀ hone.ne']
  have hpos : 0 < y.magnitude := div_pos (by exact_mod_cast hunits) hone
  rw [heq]
  refine nearest hquotient hk hunits ?_ ?_ <;> rw [hvalue, div_mul_eq_mul_div, pow_add]
  · rw [div_le_div_iff₀ hpos hw]
    calc x.magnitude * w ≤ v * spread ^ k * (y.magnitude * spread ^ l) :=
        mul_le_mul hx.le hy.ge hw.le (mul_nonneg hv (spread_pow_pos k).le)
      _ = v * (spread ^ k * spread ^ l) * y.magnitude := by ring
  · rw [div_le_div_iff₀ hw hpos]
    calc v * y.magnitude ≤ x.magnitude * spread ^ k * (w * spread ^ l) :=
        mul_le_mul hx.ge hy.le (magnitude_nonneg y)
          (mul_nonneg (magnitude_nonneg x) (spread_pow_pos k).le)
      _ = x.magnitude * (spread ^ k * spread ^ l) * w := by ring

end Rounded

/-! ## Rounding to an integer -/

/-- The integer nearest to a number. -/
def nearestInteger (x : Binary64) : ℕ := (2 * x.units + unitsPerOne) / (2 * unitsPerOne)

theorem nearestInteger_bounds (x : Binary64) :
    (x.nearestInteger : ℚ) ≤ x.magnitude + 1 / 2 ∧ x.magnitude < x.nearestInteger + 1 / 2 := by
  have htwice : 0 < 2 * unitsPerOne := Nat.mul_pos Nat.two_pos unitsPerOne_pos
  have hle : x.nearestInteger * (2 * unitsPerOne) ≤ 2 * x.units + unitsPerOne :=
    Nat.div_mul_le_self _ _
  have hlt : 2 * x.units + unitsPerOne <
      x.nearestInteger * (2 * unitsPerOne) + 2 * unitsPerOne := Nat.lt_div_mul_add htwice
  have hle' : (x.nearestInteger * (2 * unitsPerOne) : ℚ) ≤ 2 * x.units + unitsPerOne := by
    exact_mod_cast hle
  have hlt' : (2 * x.units + unitsPerOne : ℚ) <
      x.nearestInteger * (2 * unitsPerOne) + 2 * unitsPerOne := by exact_mod_cast hlt
  have hpos := unitsPerOne_cast_pos
  rw [magnitude, div_add' _ _ _ hpos.ne', le_div_iff₀ hpos, ← sub_lt_iff_lt_add,
    div_sub' hpos.ne', div_lt_iff₀ hpos]
  clear hle hlt htwice
  generalize (x.nearestInteger : ℚ) = integer at *
  generalize (x.units : ℚ) = units at *
  generalize (unitsPerOne : ℚ) = one at *
  constructor <;> linarith

/-- The nearest integer is at most twice as far from another integer as the number. -/
theorem abs_nearestInteger_sub_le (x : Binary64) (n : ℕ) :
    |(x.nearestInteger : ℚ) - n| ≤ 2 * |x.magnitude - n| := by
  obtain ⟨hle, hlt⟩ := x.nearestInteger_bounds
  rcases Nat.lt_trichotomy x.nearestInteger n with hbelow | heq | habove
  · have hgap : (x.nearestInteger : ℚ) + 1 ≤ n := by exact_mod_cast hbelow
    rw [abs_of_nonpos (by linarith), abs_of_nonpos (by linarith)]
    linarith
  · rw [heq, sub_self, abs_zero]
    positivity
  · have hgap : (n : ℚ) + 1 ≤ x.nearestInteger := by exact_mod_cast habove
    rw [abs_of_nonneg (by linarith), abs_of_nonneg (by linarith)]
    linarith

/-- What is off by less than a half is rounded to the right integer. -/
theorem nearestInteger_eq {n : ℕ} (h : |x.magnitude - n| < 1 / 2) : x.nearestInteger = n := by
  have hlt := (x.abs_nearestInteger_sub_le n).trans_lt (show _ < (1 : ℚ) by linarith)
  rw [abs_lt] at hlt
  have hle : (n : ℚ) < x.nearestInteger + 1 ∧ (x.nearestInteger : ℚ) < n + 1 := by
    constructor <;> linarith
  have hnat : n < x.nearestInteger + 1 ∧ x.nearestInteger < n + 1 := by exact_mod_cast hle
  omega

theorem round_eq (h : x.negative = false) : x.round = ofNat x.nearestInteger := by
  rw [round, h]
  rfl

/-- Few roundings have small errors: doubled, they are within those of twice as many and one. -/
theorem doubled_spread_pow (hk : k ≤ 10) :
    2 * spread ^ k - 1 ≤ spread ^ (2 * k + 1) ∧
      1 ≤ (3 - 2 * spread ^ k) * spread ^ (2 * k + 1) := by
  have hten : spread ^ k ≤ 1 + 1 / 2 ^ 49 := by
    refine (spread_pow_le hk).trans ?_
    rw [spread, roundoff]
    norm_num
  obtain ⟨e, he⟩ : ∃ e, spread ^ k = 1 + e := ⟨spread ^ k - 1, by ring⟩
  have hnonneg : 0 ≤ e := by linarith [one_le_spread_pow k]
  have hsmall : e ≤ 1 / 2 ^ 49 := by linarith
  have hpower : spread ^ (2 * k + 1) = (1 + e) ^ 2 * (1 + 1 / 2 ^ 53) := by
    rw [pow_succ, mul_comm 2 k, pow_mul, he, spread, roundoff]
  have hsquare : e ^ 2 ≤ 1 / 2 ^ 98 := by
    calc e ^ 2 ≤ (1 / 2 ^ 49) ^ 2 := pow_le_pow_left₀ hnonneg hsmall 2
      _ = 1 / 2 ^ 98 := by norm_num
  have hcube : e ^ 3 ≤ e ^ 2 := by
    rw [pow_succ]
    exact mul_le_of_le_one_right (sq_nonneg e) (hsmall.trans (by norm_num))
  rw [hpower, he]
  constructor
  · nlinarith
  · calc (1 : ℚ) ≤ (1 - 5 * (1 / 2 ^ 98)) * (1 + 1 / 2 ^ 53) := by norm_num
      _ ≤ (1 - 3 * e ^ 2 - 2 * e ^ 3) * (1 + 1 / 2 ^ 53) := by
        refine mul_le_mul_of_nonneg_right ?_ (by norm_num)
        linarith
      _ = (3 - 2 * (1 + e)) * ((1 + e) ^ 2 * (1 + 1 / 2 ^ 53)) := by ring

/-- **Rounding to the integer that a number stands for** doubles the count, and rounds twice. -/
theorem Rounded.round {n : ℕ} (h : x.Rounded k n) (hn : Moderate n) (hk : k ≤ 10) :
    x.round.Rounded (2 * k + 2) n := by
  obtain ⟨hup, hdown⟩ := doubled_spread_pow hk
  have hpower := spread_pow_pos (2 * k + 1)
  have hpos := hn.pos
  have hdist : |(x.nearestInteger : ℚ) - n| ≤ 2 * ((spread ^ k - 1) * n) :=
    (x.abs_nearestInteger_sub_le n).trans (by linarith [h.abs_sub_le])
  obtain ⟨hlow, hhigh⟩ := abs_le.mp hdist
  have hvalue : (x.nearestInteger / (1 : ℕ) : ℚ) = x.nearestInteger := by rw [Nat.cast_one, div_one]
  rw [round_eq h.nonneg]
  refine nearest hn (show 2 * k + 1 ≤ 40 by omega) Nat.one_pos ?_ ?_ <;> rw [hvalue]
  · calc (x.nearestInteger : ℚ) ≤ n * (2 * spread ^ k - 1) := by linarith
      _ ≤ n * spread ^ (2 * k + 1) := mul_le_mul_of_nonneg_left hup hpos.le
  · calc (n : ℚ) ≤ n * ((3 - 2 * spread ^ k) * spread ^ (2 * k + 1)) :=
        le_mul_of_one_le_right hpos.le hdown
      _ = n * (3 - 2 * spread ^ k) * spread ^ (2 * k + 1) := by ring
      _ ≤ x.nearestInteger * spread ^ (2 * k + 1) :=
        mul_le_mul_of_nonneg_right (by linarith) hpower.le

end Aggregation.Binary64
