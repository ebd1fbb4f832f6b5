import Aggregation.Binary64.Nearest
import Mathlib.Algebra.Order.Ring.Abs
import Mathlib.Tactic.Linarith
import Mathlib.Tactic.Ring

/-!
# Rounding is to the nearest number

`Binary64.nearest` computes a place in the order of magnitudes. Here it is measured
against what rounding means: of all finite numbers the result is nearest to the exact
value, on a tie its significand is even, and it overflows exactly from halfway between
the largest finite number and the next power of two on.

## Main results

* `roundHalfEven_nearest`: the quotient on a grid is nearest to the exact one.
* `Binary64.nearest_isNearest`: a finite result is the nearest number, ties to even.
* `Binary64.ofNat_isFinite_iff`: the natural numbers that do not overflow.
-/

namespace Aggregation

theorem twoTo_eq (n : ℕ) : twoTo n = 2 ^ n := rfl

/-! ## The nearest multiple -/

/-- The multiple chosen is at most half a step away, on either side. -/
theorem roundHalfEven_bounds (num : ℕ) {den : ℕ} (hden : 0 < den) :
    2 * (roundHalfEven num den * den) ≤ 2 * num + den ∧
      2 * num ≤ 2 * (roundHalfEven num den * den) + den := by
  have hdiv := Nat.div_add_mod' num den
  have hmod := Nat.mod_lt num hden
  have hsucc := Nat.add_one_mul (num / den) den
  simp only [roundHalfEven]
  split_ifs <;> omega

/-- Halfway between two multiples the even one is chosen. -/
theorem roundHalfEven_even (num : ℕ) {den : ℕ} (hden : 0 < den)
    (h : 2 * (roundHalfEven num den * den) = 2 * num + den ∨
      2 * num = 2 * (roundHalfEven num den * den) + den) :
    roundHalfEven num den % 2 = 0 := by
  have hdiv := Nat.div_add_mod' num den
  have hmod := Nat.mod_lt num hden
  have hsucc := Nat.add_one_mul (num / den) den
  simp only [roundHalfEven] at h ⊢
  split_ifs at h ⊢ <;> omega

/-- No multiple is nearer than the one chosen. -/
theorem roundHalfEven_nearest (num k : ℕ) {den : ℕ} (hden : 0 < den) :
    |((roundHalfEven num den * den : ℕ) : ℤ) - num| ≤ |((k * den : ℕ) : ℤ) - num| := by
  obtain ⟨hle, hge⟩ := roundHalfEven_bounds num hden
  set m := roundHalfEven num den
  rcases Nat.lt_trichotomy k m with hlt | rfl | hlt
  · have hstep : k * den + den ≤ m * den := by
      rw [← Nat.succ_mul]
      exact Nat.mul_le_mul_right den hlt
    rw [abs_sub_comm ((k * den : ℕ) : ℤ)]
    refine le_trans (abs_le.mpr ⟨?_, ?_⟩) (le_abs_self _) <;> omega
  · exact le_rfl
  · have hstep : m * den + den ≤ k * den := by
      rw [← Nat.succ_mul]
      exact Nat.mul_le_mul_right den hlt
    refine le_trans (abs_le.mpr ⟨?_, ?_⟩) (le_abs_self _) <;> omega

/-- Another multiple that is equally near leaves the chosen one even. -/
theorem roundHalfEven_tie {num k den : ℕ} (hden : 0 < den) (hk : k ≠ roundHalfEven num den)
    (h : |((roundHalfEven num den * den : ℕ) : ℤ) - num| = |((k * den : ℕ) : ℤ) - num|) :
    roundHalfEven num den % 2 = 0 := by
  obtain ⟨hle, hge⟩ := roundHalfEven_bounds num hden
  apply roundHalfEven_even num hden
  set m := roundHalfEven num den
  rcases Nat.lt_or_gt_of_ne hk with hlt | hlt
  · have hstep : k * den + den ≤ m * den := by
      rw [← Nat.succ_mul]
      exact Nat.mul_le_mul_right den hlt
    left
    rcases abs_cases (((m * den : ℕ) : ℤ) - num) with hm | hm <;>
      rcases abs_cases (((k * den : ℕ) : ℤ) - num) with hk' | hk' <;> omega
  · have hstep : m * den + den ≤ k * den := by
      rw [← Nat.succ_mul]
      exact Nat.mul_le_mul_right den hlt
    right
    rcases abs_cases (((m * den : ℕ) : ℤ) - num) with hm | hm <;>
      rcases abs_cases (((k * den : ℕ) : ℤ) - num) with hk' | hk' <;> omega

theorem roundHalfEven_zero (den : ℕ) : roundHalfEven 0 den = 0 := by simp [roundHalfEven]

/-! ## Places -/

namespace Binary64

/-- A significand has at most 53 bits: those of the fraction, and the leading one of a normal
number. -/
theorem significand_lt (x : Binary64) : x.significand < 2 ^ 53 := by
  have := x.fraction.isLt
  unfold significand
  split_ifs <;> omega

/-- The numbers with the place `shift * 2 ^ 52 + count`, for a count of units of `2 ^ shift`
that is a significand or the carry out of one. -/
theorem atPlace_count (negative : Bool) {shift count : ℕ} (hle : count ≤ 2 ^ 53)
    (hnormal : 2 ^ 52 ≤ count ∨ shift = 0) (hplace : shift * 2 ^ 52 + count < 2047 * 2 ^ 52) :
    let x := atPlace negative (shift * 2 ^ 52 + count)
    x.negative = negative ∧ x.isFinite = true ∧ x.units = count * 2 ^ shift ∧
      (count % 2 = 0 → x.significand % 2 = 0) := by
  have hatPlace : atPlace negative (shift * 2 ^ 52 + count) =
      ⟨negative, ⟨(shift * 2 ^ 52 + count) / 2 ^ 52, by omega⟩,
        ⟨(shift * 2 ^ 52 + count) % 2 ^ 52, by omega⟩⟩ := dif_pos hplace
  intro x
  have hx : x = _ := hatPlace
  clear_value x
  subst hx
  refine ⟨rfl, ?_, ?_, ?_⟩
  · simp only [isFinite, bne_iff_ne]
    omega
  · simp only [units, significand, Binary64.shift, twoTo, Nat.pow_eq]
    -- The count is below the leading bit, a significand with it, or the carry out of one.
    rcases Nat.lt_or_ge count (2 ^ 52) with hsub | hnorm
    · obtain rfl : shift = 0 := by omega
      have hexp : (0 * 2 ^ 52 + count) / 2 ^ 52 = 0 := by omega
      have hfrac : (0 * 2 ^ 52 + count) % 2 ^ 52 = count := by omega
      rw [hexp, hfrac, if_pos rfl]
    · rcases Nat.lt_or_ge count (2 ^ 53) with hlt | hcarry
      · have hexp : (shift * 2 ^ 52 + count) / 2 ^ 52 = shift + 1 := by omega
        have hfrac : (shift * 2 ^ 52 + count) % 2 ^ 52 = count - 2 ^ 52 := by omega
        have hlead : 0x10000000000000 + (count - 2 ^ 52) = count := by omega
        rw [hexp, hfrac, if_neg (by omega), Nat.add_sub_cancel, hlead]
      · obtain rfl : count = 2 ^ 53 := le_antisymm hle hcarry
        have hexp : (shift * 2 ^ 52 + 2 ^ 53) / 2 ^ 52 = shift + 2 := by omega
        have hfrac : (shift * 2 ^ 52 + 2 ^ 53) % 2 ^ 52 = 0 := by omega
        rw [hexp, hfrac, if_neg (by omega), show shift + 2 - 1 = shift + 1 by omega, pow_succ]
        ring
  · intro heven
    simp only [significand]
    split_ifs <;> omega

/-! ## Nearest numbers -/

/-- Of all finite numbers, this one is nearest to `num / den`, all counted in units; of two
equally near ones it is the one with the even significand. -/
structure IsNearest (x : Binary64) (num den : ℕ) : Prop where
  finite : x.isFinite = true
  le_dist : ∀ y : Binary64, y.isFinite = true →
    |x.signedUnits * den - num * unitsPerOne| ≤ |y.signedUnits * den - num * unitsPerOne|
  even_of_tie : ∀ y : Binary64, y.isFinite = true → y.signedUnits ≠ x.signedUnits →
    |x.signedUnits * den - num * unitsPerOne| = |y.signedUnits * den - num * unitsPerOne| →
      x.significand % 2 = 0

/-- The power of two whose multiples are the candidates for `num / den`. -/
def gridShift (num den : ℕ) : ℕ := (num * unitsPerOne / den).log2 - 52

/-- The multiple of that power that is chosen. -/
def gridCount (num den : ℕ) : ℕ :=
  roundHalfEven (num * unitsPerOne) (den * 2 ^ gridShift num den)

theorem nearest_eq_atPlace (negative : Bool) (num den : ℕ) :
    nearest negative num den =
      atPlace negative (gridShift num den * 2 ^ 52 + gridCount num den) := rfl

variable {num den : ℕ}

theorem gridStep_pos (num : ℕ) (hden : 0 < den) : 0 < den * 2 ^ gridShift num den :=
  Nat.mul_pos hden (Nat.two_pow_pos _)

/-- The exact value is below `2 ^ 53` steps of the grid. -/
theorem exact_lt (num : ℕ) (hden : 0 < den) :
    num * unitsPerOne < 2 ^ 53 * (den * 2 ^ gridShift num den) := by
  have hlog : num * unitsPerOne / den < 2 ^ ((num * unitsPerOne / den).log2 + 1) :=
    Nat.lt_log2_self
  have hexp : (num * unitsPerOne / den).log2 + 1 ≤ 53 + gridShift num den := by
    unfold gridShift
    omega
  have hquot := lt_of_lt_of_le hlog (Nat.pow_le_pow_right (by decide) hexp)
  rw [Nat.div_lt_iff_lt_mul hden, pow_add] at hquot
  calc num * unitsPerOne < 2 ^ 53 * 2 ^ gridShift num den * den := hquot
    _ = 2 ^ 53 * (den * 2 ^ gridShift num den) := by ring

/-- On a grid coarser than the units, the exact value is at least `2 ^ 52` steps. -/
theorem le_exact (num : ℕ) (hden : 0 < den) (hshift : 0 < gridShift num den) :
    2 ^ 52 * (den * 2 ^ gridShift num den) ≤ num * unitsPerOne := by
  have hne : num * unitsPerOne / den ≠ 0 := by
    intro hzero
    simp [gridShift, hzero] at hshift
  have hlog : 2 ^ (num * unitsPerOne / den).log2 ≤ num * unitsPerOne / den :=
    Nat.log2_self_le hne
  have hexp : 52 + gridShift num den = (num * unitsPerOne / den).log2 := by
    unfold gridShift at hshift ⊢
    omega
  rw [← hexp, Nat.le_div_iff_mul_le hden, pow_add] at hlog
  calc 2 ^ 52 * (den * 2 ^ gridShift num den)
      = 2 ^ 52 * 2 ^ gridShift num den * den := by ring
    _ ≤ num * unitsPerOne := hlog

theorem gridCount_le (num : ℕ) (hden : 0 < den) : gridCount num den ≤ 2 ^ 53 := by
  obtain ⟨hle, -⟩ := roundHalfEven_bounds (num * unitsPerOne) (gridStep_pos num hden)
  have hlt := exact_lt num hden
  change 2 * (gridCount num den * _) ≤ _ at hle
  by_contra hgt
  have hmul := Nat.mul_le_mul_right (den * 2 ^ gridShift num den)
    (show 2 ^ 53 + 1 ≤ gridCount num den by omega)
  rw [Nat.add_one_mul] at hmul
  omega

theorem le_gridCount (num : ℕ) (hden : 0 < den) :
    2 ^ 52 ≤ gridCount num den ∨ gridShift num den = 0 := by
  rcases Nat.eq_zero_or_pos (gridShift num den) with hzero | hpos
  · exact .inr hzero
  · left
    obtain ⟨-, hge⟩ := roundHalfEven_bounds (num * unitsPerOne) (gridStep_pos num hden)
    have hle := le_exact num hden hpos
    change _ ≤ 2 * (gridCount num den * _) + _ at hge
    by_contra hlt
    have hmul := Nat.mul_le_mul_right (den * 2 ^ gridShift num den)
      (show gridCount num den + 1 ≤ 2 ^ 52 by omega)
    rw [Nat.add_one_mul] at hmul
    have := gridStep_pos num hden
    omega

/-- Every finite number is a multiple of a given power of two, or too small to be one of
its normal multiples. -/
theorem units_on_grid (y : Binary64) (shift : ℕ) :
    (∃ k, y.units = k * 2 ^ shift) ∨ (0 < shift ∧ y.units < 2 ^ 52 * 2 ^ shift) := by
  rcases Nat.lt_or_ge y.shift shift with hfine | hcoarse
  · right
    refine ⟨by omega, ?_⟩
    have hlt : y.units < 2 ^ 53 * 2 ^ y.shift :=
      Nat.mul_lt_mul_of_pos_right y.significand_lt (Nat.two_pow_pos _)
    calc y.units < 2 ^ 53 * 2 ^ y.shift := hlt
      _ = 2 ^ 52 * 2 ^ (y.shift + 1) := by rw [pow_succ]; ring
      _ ≤ 2 ^ 52 * 2 ^ shift :=
        Nat.mul_le_mul_left _ (Nat.pow_le_pow_right (by decide) hfine)
  · left
    refine ⟨y.significand * 2 ^ (y.shift - shift), ?_⟩
    rw [mul_assoc, ← pow_add, Nat.sub_add_cancel hcoarse]
    rfl

/-- The chosen multiple is at least as near as any magnitude on or below the grid, and an
equally near other one leaves its count even. -/
theorem grid_nearest (hden : 0 < den) {x v : ℕ}
    (hx : x = gridCount num den * 2 ^ gridShift num den)
    (hv : (∃ k, v = k * 2 ^ gridShift num den) ∨
      (0 < gridShift num den ∧ v < 2 ^ 52 * 2 ^ gridShift num den)) :
    |((x * den : ℕ) : ℤ) - (num * unitsPerOne : ℕ)| ≤
        |((v * den : ℕ) : ℤ) - (num * unitsPerOne : ℕ)| ∧
      (v ≠ x → |((x * den : ℕ) : ℤ) - (num * unitsPerOne : ℕ)| =
        |((v * den : ℕ) : ℤ) - (num * unitsPerOne : ℕ)| → gridCount num den % 2 = 0) := by
  subst hx
  have hstep := gridStep_pos num hden
  have hscale : ∀ k, k * 2 ^ gridShift num den * den = k * (den * 2 ^ gridShift num den) := by
    intro k
    ring
  rcases hv with ⟨k, rfl⟩ | ⟨hshift, hsmall⟩
  · simp only [hscale]
    refine ⟨roundHalfEven_nearest _ k hstep, fun hne htie => ?_⟩
    exact roundHalfEven_tie hstep (fun hk => hne (congrArg (· * _) hk)) htie
  · -- A smaller magnitude is farther away than the grid's least normal multiple.
    have hle := le_exact num hden hshift
    have hnear := roundHalfEven_nearest (num * unitsPerOne) (2 ^ 52) hstep
    have hfar : v * den < 2 ^ 52 * (den * 2 ^ gridShift num den) := by
      rw [← hscale]
      exact Nat.mul_lt_mul_of_pos_right hsmall hden
    have hlt : |((gridCount num den * 2 ^ gridShift num den * den : ℕ) : ℤ) -
        (num * unitsPerOne : ℕ)| < |((v * den : ℕ) : ℤ) - (num * unitsPerOne : ℕ)| := by
      rw [hscale]
      refine lt_of_le_of_lt hnear ?_
      rw [abs_of_nonpos (by omega), abs_of_nonpos (by omega)]
      omega
    exact ⟨hlt.le, fun _ htie => absurd htie hlt.ne⟩

/-- What a rounding gives that does not overflow: the chosen multiple. -/
theorem nearest_of_lt (negative : Bool) (hden : 0 < den)
    (h : gridShift num den * 2 ^ 52 + gridCount num den < 2047 * 2 ^ 52) :
    (nearest negative num den).negative = negative ∧
      (nearest negative num den).isFinite = true ∧
      (nearest negative num den).units = gridCount num den * 2 ^ gridShift num den ∧
      (gridCount num den % 2 = 0 → (nearest negative num den).significand % 2 = 0) := by
  rw [nearest_eq_atPlace]
  exact atPlace_count negative (gridCount_le num hden) (le_gridCount num hden) h

theorem nearest_zero (negative : Bool) (den : ℕ) : nearest negative 0 den = zero negative := by
  simp only [nearest, Nat.zero_mul, Nat.zero_div, Nat.log2_zero, Nat.zero_sub, roundHalfEven_zero]
  rfl

theorem nearest_of_ge (negative : Bool)
    (h : 2047 * 2 ^ 52 ≤ gridShift num den * 2 ^ 52 + gridCount num den) :
    nearest negative num den = infinity negative := by
  rw [nearest_eq_atPlace]
  exact dif_neg (Nat.not_lt.mpr h)

theorem isFinite_infinity (negative : Bool) : (infinity negative).isFinite = false := by
  cases negative <;> decide

theorem nearest_isFinite_iff (negative : Bool) (hden : 0 < den) :
    (nearest negative num den).isFinite = true ↔
      gridShift num den * 2 ^ 52 + gridCount num den < 2047 * 2 ^ 52 := by
  rcases Nat.lt_or_ge (gridShift num den * 2 ^ 52 + gridCount num den) (2047 * 2 ^ 52)
    with hlt | hge
  · exact ⟨fun _ => hlt, fun _ => (nearest_of_lt negative hden hlt).2.1⟩
  · rw [nearest_of_ge negative hge, isFinite_infinity]
    exact ⟨fun h => by simp at h, fun h => absurd h (Nat.not_lt.mpr hge)⟩

/-- A ratio of at least one unit does not round to zero. -/
theorem nearest_units_pos (negative : Bool) (hden : 0 < den)
    (hfinite : (nearest negative num den).isFinite = true) (h : den ≤ num * unitsPerOne) :
    0 < (nearest negative num den).units := by
  obtain ⟨-, -, hunits, -⟩ :=
    nearest_of_lt negative hden ((nearest_isFinite_iff negative hden).mp hfinite)
  rw [hunits]
  refine Nat.mul_pos ?_ (Nat.two_pow_pos _)
  rcases le_gridCount num hden with hnormal | hzero
  · exact lt_of_lt_of_le (Nat.two_pow_pos 52) hnormal
  · -- On the grid of the units the count is at most half a unit below the ratio.
    obtain ⟨-, hge⟩ := roundHalfEven_bounds (num * unitsPerOne) (gridStep_pos num hden)
    rw [← gridCount, hzero, pow_zero, mul_one] at hge
    refine Nat.pos_of_ne_zero fun hcount => ?_
    rw [hcount] at hge
    omega

/-- Rounding gives a finite number or an infinity, never a NaN. -/
theorem nearest_isFinite_or_eq_infinity (negative : Bool) (hden : 0 < den) :
    (nearest negative num den).isFinite = true ∨ nearest negative num den = infinity negative := by
  rw [nearest_isFinite_iff negative hden]
  exact (Nat.lt_or_ge _ _).imp_right (nearest_of_ge negative)

theorem signedUnits_of_nonneg {x : Binary64} (h : x.negative = false) :
    x.signedUnits = x.units := by
  simp [signedUnits, h]

/-- Below zero, the distance to a nonnegative value grows with the magnitude. -/
theorem dist_neg {v d t : ℤ} (hv : 0 ≤ v) (hd : 0 ≤ d) (ht : 0 ≤ t) :
    |-v * d - t| = |0 * d - t| + v * d := by
  have hvd := mul_nonneg hv hd
  rw [zero_mul, zero_sub, abs_neg, abs_of_nonneg ht, neg_mul, ← neg_add', abs_neg,
    abs_of_nonneg (add_nonneg hvd ht), add_comm]

/-- **Rounding gives the nearest number**, and on a tie an even significand. -/
theorem nearest_isNearest (hden : 0 < den)
    (hfinite : (nearest false num den).isFinite = true) :
    (nearest false num den).IsNearest num den := by
  obtain ⟨hneg, -, hunits, heven⟩ :=
    nearest_of_lt false hden ((nearest_isFinite_iff false hden).mp hfinite)
  have hx := signedUnits_of_nonneg hneg
  have hcompare : ∀ y : Binary64,
      |(nearest false num den).signedUnits * den - num * unitsPerOne| ≤
          |y.signedUnits * den - num * unitsPerOne| ∧
        (y.signedUnits ≠ (nearest false num den).signedUnits →
          |(nearest false num den).signedUnits * den - num * unitsPerOne| =
            |y.signedUnits * den - num * unitsPerOne| → gridCount num den % 2 = 0) := by
    intro y
    rw [hx]
    cases hsign : y.negative with
    | false =>
      have hy := grid_nearest hden hunits (y.units_on_grid (gridShift num den))
      rw [signedUnits_of_nonneg hsign]
      exact_mod_cast hy
    | true =>
      -- A negative number is at least as far away as zero, and farther unless it is one.
      have hy : y.signedUnits = -(y.units : ℤ) := by simp [signedUnits, hsign]
      have hfar := dist_neg (Int.natCast_nonneg y.units) (Int.natCast_nonneg den)
        (mul_nonneg (Int.natCast_nonneg num) (Int.natCast_nonneg unitsPerOne))
      have hgap : (0 : ℤ) ≤ y.units * den :=
        mul_nonneg (Int.natCast_nonneg _) (Int.natCast_nonneg _)
      obtain ⟨hle, htie⟩ := grid_nearest hden hunits (.inl ⟨0, (Nat.zero_mul _).symm⟩)
      push_cast at hle htie
      rw [hy, hfar]
      refine ⟨by linarith, fun hne heq => htie (fun h0 => ?_) (by linarith)⟩
      have hprod : (y.units : ℤ) * den = 0 := by linarith
      have hunits0 : (y.units : ℤ) = 0 :=
        (mul_eq_zero.mp hprod).resolve_right (by exact_mod_cast hden.ne')
      apply hne
      rw [hunits0, ← h0]
      rfl
  refine ⟨hfinite, fun y _ => (hcompare y).1, fun y _ hne htie => heven ?_⟩
  exact (hcompare y).2 hne htie

/-! ## Natural numbers -/

theorem unitsPerOne_eq : unitsPerOne = 2 ^ 1074 := twoTo_eq 1074

theorem unitsPerOne_pos : 0 < unitsPerOne := twoTo_pos 1074

/-- What is at most `2 ^ 1022` does not overflow. -/
theorem nearest_isFinite_of_le (negative : Bool) {k : ℕ} (hk : k ≤ 1022) (hden : 0 < den)
    (hle : num ≤ 2 ^ k * den) : (nearest negative num den).isFinite = true := by
  rw [nearest_isFinite_iff negative hden]
  have hcount := gridCount_le num hden
  have hexact : num * unitsPerOne / den ≤ 2 ^ (k + 1074) := by
    apply Nat.div_le_of_le_mul
    calc num * unitsPerOne ≤ 2 ^ k * den * unitsPerOne := Nat.mul_le_mul_right _ hle
      _ = den * 2 ^ (k + 1074) := by
        rw [pow_add, ← unitsPerOne_eq]
        ring
  have hlog : (num * unitsPerOne / den).log2 < k + 1075 := by
    rcases Nat.eq_zero_or_pos (num * unitsPerOne / den) with hzero | hpos
    · rw [hzero, Nat.log2_zero]
      omega
    · rw [Nat.log2_lt hpos.ne']
      exact hexact.trans_lt (Nat.pow_lt_pow_right (by decide) (by omega))
  have hshift : gridShift num den ≤ k + 1022 := by
    unfold gridShift
    omega
  omega

/-- On the coarsest grid, with steps of `2 * half`, the count is that of a carry exactly from
halfway below `2 ^ 53` steps on. -/
theorem count_lt_carry_iff {exact count half : ℕ} (hhalf : 0 < half)
    (hle : 2 * (count * (2 * half)) ≤ 2 * exact + 2 * half)
    (hge : 2 * exact ≤ 2 * (count * (2 * half)) + 2 * half)
    (heven : 2 * exact = 2 * (count * (2 * half)) + 2 * half → count % 2 = 0) :
    count < 2 ^ 53 ↔ exact < 2 ^ 54 * half - half := by
  have hscale : count * (2 * half) = 2 * (count * half) := by ring
  rw [hscale] at hle hge heven
  constructor
  · intro hlt
    have hmul := Nat.mul_le_mul_right half (show count ≤ 2 ^ 53 - 1 by omega)
    by_contra hover
    -- Only the tie at the odd count `2 ^ 53 - 1` is left.
    have htie : 2 * exact = 2 * (2 * (count * half)) + 2 * half := by omega
    have hprod : (2 ^ 53 - 1) * half ≤ count * half := by omega
    have hcount := Nat.le_of_mul_le_mul_right hprod hhalf
    have := heven htie
    omega
  · intro hlt
    by_contra hcarry
    have hmul := Nat.mul_le_mul_right half (show 2 ^ 53 ≤ count by omega)
    omega

/-- **Overflow**: the natural numbers that round to a finite number are those below halfway
between the largest finite number and `2 ^ 1024`. -/
theorem ofNat_isFinite_iff (n : ℕ) :
    (ofNat n).isFinite = true ↔ n < 2 ^ 1024 - 2 ^ 970 := by
  -- Half a step of the coarsest grid, counted in units.
  obtain ⟨half, hhalf⟩ : ∃ half : ℕ, 2 ^ 2044 = half := ⟨_, rfl⟩
  have hpos : 0 < half := by
    rw [← hhalf]
    exact pow_pos (by decide) _
  have hbound : (2 ^ 1024 - 2 ^ 970) * unitsPerOne = 2 ^ 54 * half - half := by
    rw [Nat.sub_mul, unitsPerOne_eq, ← pow_add, ← pow_add, ← hhalf, ← pow_add]
  have hcount := gridCount_le n Nat.one_pos
  have hstep : ∀ k, 1 * 2 ^ (2044 + k) = 2 ^ k * half := by
    intro k
    rw [one_mul, pow_add, hhalf, mul_comm]
  have hexact : n < 2 ^ 1024 - 2 ^ 970 ↔ n * unitsPerOne < 2 ^ 54 * half - half := by
    rw [← hbound, Nat.mul_lt_mul_right unitsPerOne_pos]
  rw [ofNat, nearest_isFinite_iff false Nat.one_pos, hexact]
  rcases Nat.lt_trichotomy (gridShift n 1) 2045 with hfine | hlast | hover
  · have hlt := exact_lt n Nat.one_pos
    have hpow : 2 ^ gridShift n 1 ≤ 2 ^ 2044 := pow_le_pow_right₀ (by decide) (by omega)
    rw [hhalf] at hpow
    rw [one_mul] at hlt
    constructor <;> intro _ <;> omega
  · obtain ⟨hle, hge⟩ :=
      roundHalfEven_bounds (n * unitsPerOne) (gridStep_pos n Nat.one_pos)
    have heven :=
      roundHalfEven_even (n * unitsPerOne) (gridStep_pos n Nat.one_pos)
    have hgrid : 1 * 2 ^ gridShift n 1 = 2 * half := by rw [hlast, hstep 1, pow_one]
    rw [← gridCount, hgrid] at hle hge heven
    rw [← count_lt_carry_iff hpos hle hge fun h => heven (.inr h)]
    omega
  · have hpow : 2 ^ 2 * half ≤ 2 ^ gridShift n 1 := by
      rw [← hstep 2, one_mul]
      exact pow_le_pow_right₀ (by decide) (by omega)
    have hle := le_exact n Nat.one_pos (by omega)
    have hnormal := (le_gridCount n Nat.one_pos).resolve_right (by omega)
    rw [one_mul] at hle
    constructor <;> intro _ <;> omega

/-! ## Order -/

/-- Rounding does not cross a finite number: what is at least one rounds to at least it. -/
theorem IsNearest.le_of_le {x y : Binary64} (hx : x.IsNearest num den) (hden : 0 < den)
    (hy : y.isFinite = true) (hle : y.signedUnits * den ≤ num * unitsPerOne) :
    y.signedUnits ≤ x.signedUnits := by
  by_contra hlt
  have hmul : x.signedUnits * den < y.signedUnits * den :=
    mul_lt_mul_of_pos_right (not_le.mp hlt) (by exact_mod_cast hden)
  have hdist := hx.le_dist y hy
  rw [abs_of_nonpos (by linarith), abs_of_nonpos (by linarith)] at hdist
  linarith

/-- What is at most a finite number rounds to at most it. -/
theorem IsNearest.le_of_ge {x y : Binary64} (hx : x.IsNearest num den) (hden : 0 < den)
    (hy : y.isFinite = true) (hge : num * unitsPerOne ≤ y.signedUnits * den) :
    x.signedUnits ≤ y.signedUnits := by
  by_contra hlt
  have hmul : y.signedUnits * den < x.signedUnits * den :=
    mul_lt_mul_of_pos_right (not_le.mp hlt) (by exact_mod_cast hden)
  have hdist := hx.le_dist y hy
  rw [abs_of_nonneg (by linarith), abs_of_nonneg (by linarith)] at hdist
  linarith

end Binary64
end Aggregation
