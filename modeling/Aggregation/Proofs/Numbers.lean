import Aggregation.Number
import Aggregation.Proofs.Rounding

/-!
# Which numbers are integers on the wire

A float is split on its exact value: it is an integer exactly when its units are a
multiple of the units that make one. Then its comparisons with the bounds of the words are
those of integers, and the cast to a word is exact. Digits beyond 64 bits spell a number whose
nearest float is itself beyond 64 bits, so they never come back as an integer.
-/

namespace Aggregation

/-- The integers that a word of 64 bits holds, with or without a sign. -/
def Word.Holds (n : ℤ) : Prop := -2 ^ 63 ≤ n ∧ n < 2 ^ 64

instance (n : ℤ) : Decidable (Word.Holds n) := inferInstanceAs (Decidable (_ ∧ _))

namespace Binary64

/-- The float is exactly that integer. -/
def IsInteger (x : Binary64) (n : ℤ) : Prop :=
  x.isFinite = true ∧ x.signedUnits = n * unitsPerOne

theorem toInt?_eq_some_iff {x : Binary64} {n : ℤ} : x.toInt? = some n ↔ x.IsInteger n := by
  have hone : (unitsPerOne : ℤ) ≠ 0 := by exact_mod_cast unitsPerOne_pos.ne'
  have hdvd : x.units % unitsPerOne = 0 ↔ (unitsPerOne : ℤ) ∣ x.units := by
    rw [← Nat.dvd_iff_mod_eq_zero, Int.natCast_dvd_natCast]
  simp only [toInt?, IsInteger, signedUnits, Bool.and_eq_true, beq_iff_eq, hdvd]
  generalize (unitsPerOne : ℤ) = one at *
  generalize (x.units : ℤ) = units at *
  constructor
  · intro h
    split at h
    · rename_i hint
      obtain ⟨hfinite, k, rfl⟩ := hint
      refine ⟨hfinite, ?_⟩
      rw [Int.mul_ediv_cancel_left k hone] at h
      cases h
      split <;> ring
    · contradiction
  · rintro ⟨hfinite, hunits⟩
    have hmul : units = one * (if x.negative then -n else n) := by
      split at hunits <;> simp_all <;> linarith
    rw [if_pos ⟨hfinite, _, hmul⟩, hmul, Int.mul_ediv_cancel_left _ hone]
    split <;> simp

theorem exists_isInteger_iff {x : Binary64} :
    (∃ n, x.IsInteger n) ↔ x.isFinite = true ∧ x.units % unitsPerOne = 0 := by
  have htest : (x.isFinite && x.units % unitsPerOne == 0) = true ↔
      x.isFinite = true ∧ x.units % unitsPerOne = 0 := by
    rw [Bool.and_eq_true, beq_iff_eq]
  simp only [← toInt?_eq_some_iff, toInt?]
  rw [← htest]
  split
  · exact iff_of_true ⟨_, rfl⟩ ‹_›
  · exact iff_of_false (fun ⟨_, hn⟩ => nomatch hn) ‹_›

/-- Equal floats are no NaN, and the same or both zero. -/
theorem equal_iff {x y : Binary64} : x.equal y = true ↔
    x.isNaN = false ∧ y.isNaN = false ∧ (x = y ∨ x.isZero = true ∧ y.isZero = true) := by
  rw [equal, Bool.and_eq_true, Bool.and_eq_true, Bool.not_eq_true', Bool.not_eq_true',
    Bool.or_eq_true, Bool.and_eq_true, decide_eq_true_eq, and_assoc]

/-- A power of two: a significand of `2 ^ 52` on the grid that makes it one. -/
def powerOfTwo (k : ℕ) : Binary64 := atPlace false ((1022 + k) * 2 ^ 52 + 2 ^ 52)

theorem powerOfTwo_eq {k : ℕ} (hk : k ≤ 1023) :
    (powerOfTwo k).isFinite = true ∧ (powerOfTwo k).signedUnits = 2 ^ k * unitsPerOne := by
  obtain ⟨hsign, hfinite, hunits, -⟩ :=
    atPlace_count false (show 2 ^ 52 ≤ 2 ^ 53 by decide) (.inl (Nat.le_refl (2 ^ 52)))
      (show (1022 + k) * 2 ^ 52 + 2 ^ 52 < 2047 * 2 ^ 52 by omega)
  refine ⟨hfinite, ?_⟩
  have hpow : 2 ^ 52 * 2 ^ (1022 + k) = 2 ^ k * unitsPerOne := by
    rw [unitsPerOne_eq, ← pow_add, ← pow_add, show 52 + (1022 + k) = k + 1074 by omega]
  rw [powerOfTwo, signedUnits_of_nonneg hsign, hunits, hpow]
  push_cast
  rfl

/-! ## Fractions, comparisons and casts -/

section Conversion
variable {x y : Binary64} {m n : ℤ}

theorem units_eq_zero_of_isZero (h : x.isZero = true) : x.units = 0 := by
  simp only [isZero, Bool.and_eq_true, beq_iff_eq] at h
  simp [units, significand, h.1, h.2]

theorem isNaN_of_isFinite (h : x.isFinite = true) : x.isNaN = false := by
  rw [isFinite, bne_iff_ne] at h
  rw [isNaN, beq_false_of_ne h, Bool.false_and]

/-- **The numbers without a fraction are the integers.** The fraction is small, yet at least one
unit, so no rounding makes it zero. -/
theorem isZero_fract_iff : x.fract.isZero = true ↔ ∃ n, x.IsInteger n := by
  rw [exists_isInteger_iff, fract]
  by_cases hfinite : x.isFinite = true
  · rw [if_pos hfinite]
    dsimp only
    rcases Nat.eq_zero_or_pos (x.units % unitsPerOne) with hzero | hpos
    · rw [hzero, nearest_zero]
      exact iff_of_true rfl ⟨hfinite, rfl⟩
    · have hle : x.units % unitsPerOne ≤ 2 ^ 0 * unitsPerOne := by
        rw [pow_zero, one_mul]
        exact (Nat.mod_lt _ unitsPerOne_pos).le
      have hunits := nearest_units_pos (x.negative && x.units % unitsPerOne != 0)
        unitsPerOne_pos (nearest_isFinite_of_le _ (Nat.zero_le 1022) unitsPerOne_pos hle)
        (Nat.le_mul_of_pos_left unitsPerOne hpos)
      exact iff_of_false (fun hzero => hunits.ne' (units_eq_zero_of_isZero hzero))
        fun hint => hpos.ne' hint.2
  · rw [if_neg hfinite]
    exact iff_of_false (by decide) fun hint => hfinite hint.1

theorem IsInteger.lt_iff (hx : x.IsInteger m) (hy : y.IsInteger n) :
    x.lt y = true ↔ m < n := by
  have hone : (0 : ℤ) < unitsPerOne := by exact_mod_cast unitsPerOne_pos
  rw [lt, isNaN_of_isFinite hx.1, isNaN_of_isFinite hy.1, hx.2, hy.2]
  rw [Bool.not_false, Bool.true_and, Bool.true_and, decide_eq_true_iff]
  exact mul_lt_mul_iff_of_pos_right hone

theorem IsInteger.le_iff (hx : x.IsInteger m) (hy : y.IsInteger n) :
    x.le y = true ↔ m ≤ n := by
  have hone : (0 : ℤ) < unitsPerOne := by exact_mod_cast unitsPerOne_pos
  rw [le, isNaN_of_isFinite hx.1, isNaN_of_isFinite hy.1, hx.2, hy.2]
  rw [Bool.not_false, Bool.true_and, Bool.true_and, decide_eq_true_iff]
  exact mul_le_mul_iff_of_pos_right hone

/-- Within the bounds a cast is exact. -/
theorem IsInteger.toIntWithin_eq {least greatest : ℤ} (hx : x.IsInteger n) (hn : least ≤ n)
    (hn' : n ≤ greatest) : x.toIntWithin least greatest = n := by
  have hone : (unitsPerOne : ℤ) ≠ 0 := by exact_mod_cast unitsPerOne_pos.ne'
  rw [toIntWithin, isNaN_of_isFinite hx.1, hx.2, Int.mul_tdiv_cancel n hone,
    if_neg Bool.false_ne_true, if_neg (not_lt.mpr hn), if_neg (not_lt.mpr hn')]

theorem IsInteger.toInt_toInt64 (hx : x.IsInteger n) (hn : -2 ^ 63 ≤ n) (hn' : n < 2 ^ 63) :
    x.toInt64.toInt = n := by
  rw [toInt64, hx.toIntWithin_eq (by simp only [Word.leastSigned]; omega)
    (by simp only [Word.greatestSigned]; omega)]
  exact Int64.toInt_ofInt_of_le (by omega) (by omega)

theorem IsInteger.toNat_toUInt64 (hx : x.IsInteger n) (hn : 0 ≤ n) (hn' : n < 2 ^ 64) :
    (x.toUInt64.toNat : ℤ) = n := by
  rw [toUInt64, hx.toIntWithin_eq hn (by simp only [Word.greatestUnsigned]; omega),
    UInt64.toNat_ofNat_of_lt' (by simp only [UInt64.size]; omega)]
  omega

end Conversion

/-! ## The bounds of the words -/

theorem isInteger_leastSigned : (ofInt Word.leastSigned).IsInteger (-2 ^ 63) :=
  toInt?_eq_some_iff.mp (by decide +kernel)

/-- The greatest signed word is rounded up, out of the range. -/
theorem isInteger_greatestSigned : (ofInt Word.greatestSigned).IsInteger (2 ^ 63) :=
  toInt?_eq_some_iff.mp (by decide +kernel)

/-- So is the greatest unsigned one. -/
theorem isInteger_greatestUnsigned : (ofInt Word.greatestUnsigned).IsInteger (2 ^ 64) :=
  toInt?_eq_some_iff.mp (by decide +kernel)

/-- A natural number beyond 64 bits rounds to a float that is no integer of 64 bits. -/
theorem not_holds_of_ofNat {n : ℕ} {m : ℤ} (hn : 2 ^ 64 ≤ n) (h : (ofNat n).IsInteger m) :
    ¬ Word.Holds m := by
  have hnear : (ofNat n).IsNearest n 1 := nearest_isNearest Nat.one_pos h.1
  have hone : (0 : ℤ) < unitsPerOne := by exact_mod_cast unitsPerOne_pos
  have hn' : (2 ^ 64 : ℤ) ≤ n := by exact_mod_cast hn
  obtain ⟨hfinite, hunits⟩ := powerOfTwo_eq (show 64 ≤ 1023 by decide)
  have hle := hnear.le_of_le Nat.one_pos hfinite (by
    rw [hunits, Nat.cast_one, mul_one]
    exact mul_le_mul_of_nonneg_right hn' hone.le)
  rw [hunits, h.2] at hle
  exact fun hm => absurd (le_of_mul_le_mul_right hle hone) (not_le.mpr hm.2)

end Binary64

namespace Word

theorem holds_toInt (n : Int64) : Holds n.toInt := ⟨n.le_toInt, n.toInt_lt.trans (by decide)⟩

theorem holds_toNat (n : UInt64) : Holds n.toNat := ⟨by omega, by exact_mod_cast n.toNat_lt⟩

theorem signed?_eq_none_iff {n : ℤ} : signed? n = none ↔ ¬ (-2 ^ 63 ≤ n ∧ n < 2 ^ 63) := by
  simp [signed?]

theorem unsigned?_eq_none_iff {n : ℤ} : unsigned? n = none ↔ ¬ (0 ≤ n ∧ n < 2 ^ 64) := by
  simp [unsigned?]

end Word

namespace Number

theorem ofInt?_eq_none_iff {n : ℤ} : ofInt? n = none ↔ ¬ Word.Holds n := by
  have hsigned := Word.signed?_eq_none_iff (n := n)
  have hunsigned := Word.unsigned?_eq_none_iff (n := n)
  unfold ofInt? Word.Holds
  cases hs : Word.signed? n <;> cases hu : Word.unsigned? n <;> simp [hs, hu] at * <;> omega

/-- An integer that 64 bits hold is written as itself. -/
theorem render_of_ofInt? {n : ℤ} {number : Number} (h : ofInt? n = some number) :
    number.render = .integer n := by
  unfold ofInt? at h
  split at h
  · rename_i hs
    cases h
    rw [render, Word.toInt_of_signed? hs]
  · rename_i hu
    cases h
    rw [render, Word.toNat_of_unsigned? hu]
  · contradiction

/-! ## Splitting a float -/

section Split
variable {x : Binary64} {n : ℤ}

theorem ofBinary64_of_signed (hx : x.IsInteger n) (hn : -2 ^ 63 ≤ n) (hn' : n < 2 ^ 63) :
    ofBinary64 x = .integral x.toInt64 := by
  have hlow := mt (hx.lt_iff Binary64.isInteger_leastSigned).mp (by omega)
  have hhigh := mt (Binary64.isInteger_greatestUnsigned.le_iff hx).mp (by omega)
  rw [ofBinary64, Binary64.isZero_fract_iff.mpr ⟨n, hx⟩, Bool.eq_false_iff.mpr hlow,
    Bool.eq_false_iff.mpr hhigh, if_neg (by decide),
    if_pos ((hx.lt_iff Binary64.isInteger_greatestSigned).mpr hn')]

theorem ofBinary64_of_unsigned (hx : x.IsInteger n) (hn : 2 ^ 63 ≤ n) (hn' : n < 2 ^ 64) :
    ofBinary64 x = .unsigned x.toUInt64 := by
  have hlow := mt (hx.lt_iff Binary64.isInteger_leastSigned).mp (by omega)
  have hhigh := mt (Binary64.isInteger_greatestUnsigned.le_iff hx).mp (by omega)
  have hsigned := mt (hx.lt_iff Binary64.isInteger_greatestSigned).mp (by omega)
  rw [ofBinary64, Binary64.isZero_fract_iff.mpr ⟨n, hx⟩, Bool.eq_false_iff.mpr hlow,
    Bool.eq_false_iff.mpr hhigh, if_neg (by decide), if_neg hsigned]

/-- A float that is no integer of 64 bits stays the float it is. -/
theorem ofBinary64_eq_floating (h : ¬ ∃ n, x.IsInteger n ∧ Word.Holds n) :
    ofBinary64 x = .floating x := by
  rw [ofBinary64, if_pos]
  simp only [Bool.or_eq_true, Bool.not_eq_true']
  by_cases hint : ∃ n, x.IsInteger n
  · obtain ⟨n, hx⟩ := hint
    have hn : ¬ Word.Holds n := fun hn => h ⟨n, hx, hn⟩
    rw [hx.lt_iff Binary64.isInteger_leastSigned, Binary64.isInteger_greatestUnsigned.le_iff hx]
    unfold Word.Holds at hn
    omega
  · exact .inl (.inl (Bool.eq_false_iff.mpr (mt Binary64.isZero_fract_iff.mp hint)))

/-- A float is an integer of the signed range, one beyond it, or neither. -/
theorem ofBinary64_cases (x : Binary64) :
    (∃ n, x.IsInteger n ∧ (-2 ^ 63 ≤ n ∧ n < 2 ^ 63) ∧ ofBinary64 x = .integral x.toInt64) ∨
      (∃ n, x.IsInteger n ∧ (2 ^ 63 ≤ n ∧ n < 2 ^ 64) ∧ ofBinary64 x = .unsigned x.toUInt64) ∨
      (¬ ∃ n, x.IsInteger n ∧ Word.Holds n) ∧ ofBinary64 x = .floating x := by
  by_cases h : ∃ n, x.IsInteger n ∧ Word.Holds n
  · obtain ⟨n, hx, hn⟩ := h
    rcases lt_or_ge n (2 ^ 63) with hlt | hge
    · exact .inl ⟨n, hx, ⟨hn.1, hlt⟩, ofBinary64_of_signed hx hn.1 hlt⟩
    · exact .inr (.inl ⟨n, hx, ⟨hge, hn.2⟩, ofBinary64_of_unsigned hx hge hn.2⟩)
  · exact .inr (.inr ⟨h, ofBinary64_eq_floating h⟩)

theorem render_ofBinary64_of_integer (hx : x.IsInteger n) (hn : Word.Holds n) :
    (ofBinary64 x).render = .integer n := by
  rcases lt_or_ge n (2 ^ 63) with hlt | hge
  · rw [ofBinary64_of_signed hx hn.1 hlt, render, hx.toInt_toInt64 hn.1 hlt]
  · rw [ofBinary64_of_unsigned hx hge hn.2, render, hx.toNat_toUInt64 (by omega) hn.2]

end Split

/-! ## Digits -/

theorem render_ofDigits_of_lt {digits : List Char} (h : Digits.value digits < 2 ^ 64) :
    (ofDigits digits).render = .integer (Digits.value digits) := by
  cases hnumber : ofInt? (Digits.value digits) with
  | none =>
    refine absurd ?_ (ofInt?_eq_none_iff.mp hnumber)
    exact ⟨by omega, by exact_mod_cast h⟩
  | some number =>
    simp only [ofDigits, hnumber, Option.getD_some]
    exact render_of_ofInt? hnumber

/-- Digits beyond 64 bits make the nearest float, never an integer. -/
theorem ofDigits_eq_floating {digits : List Char} (h : 2 ^ 64 ≤ Digits.value digits) :
    ofDigits digits = .floating (Binary64.ofNat (Digits.value digits)) := by
  have hnone : ofInt? (Digits.value digits) = none := by
    rw [ofInt?_eq_none_iff]
    rintro ⟨-, hlt⟩
    exact absurd hlt (not_lt.mpr (by exact_mod_cast h))
  unfold ofDigits
  dsimp only
  rw [hnone, Option.getD_none]
  exact ofBinary64_eq_floating fun ⟨m, hm, hholds⟩ => Binary64.not_holds_of_ofNat h hm hholds

end Number
end Aggregation
