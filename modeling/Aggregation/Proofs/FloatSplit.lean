import Aggregation.Proofs.ReadIntervals

/-!
# Floats are split exactly

A float is held as an integer exactly when it is one of the signed range, or of the unsigned
range beyond it. The casts to words are made within their ranges, so they are exact, and the
word as a float is the number again. Any other float is kept bit for bit, and only NaN and the
infinities have no literal.

## Main results

* `Binary64.nearest_of_units` - a number rounds to itself.
* `Number.ofBinary64_exact` - what a float is split into, and what is written of it.
-/

namespace Aggregation

namespace Binary64

variable {x : Binary64} {num den : ℕ} {n : ℤ}

theorem isFinite_eq_false_iff :
    x.isFinite = false ↔ x.isNaN = true ∨ x.isInfinite = true := by
  simp only [isFinite, isNaN, isInfinite, bne_eq_false_iff_eq, Bool.and_eq_true, beq_iff_eq,
    bne_iff_ne]
  tauto

theorem lowerGap_pos (x : Binary64) : 0 < x.lowerGap := by
  unfold lowerGap
  split <;> decide

/-- A number lies in its own interval, and in its end only if it is zero. -/
theorem covers_of_units (hden : 0 < den) (h : x.units * den = num * unitsPerOne) :
    x.readInterval.Covers (num / den) := by
  have hgap := x.lowerGap_pos
  have hunits : x.units = x.significand * 2 ^ x.shift := rfl
  rw [covers_div_iff hden, ← h, hunits, readInterval_lower, readInterval_upper]
  simp only [← mul_assoc]
  have hpos : 0 < 2 ^ x.shift * den := Nat.mul_pos (Nat.two_pow_pos _) hden
  simp only [mul_assoc _ (2 ^ x.shift) den]
  refine ⟨Nat.mul_le_mul_right _ (by omega), Nat.mul_le_mul_right _ (by omega), ?_⟩
  rintro (hlower | hupper)
  · have := Nat.eq_of_mul_eq_mul_right hpos hlower
    omega
  · have := Nat.eq_of_mul_eq_mul_right hpos hupper
    omega

/-- **A number rounds to itself.** -/
theorem nearest_of_units (hx : x.isFinite = true) (hden : 0 < den)
    (h : x.units * den = num * unitsPerOne) (negative : Bool) :
    nearest negative num den = x.withSign negative :=
  nearest_of_covers hx hden (covers_of_units hden h) negative

theorem isZero_of_units_eq_zero (h : x.units = 0) : x.isZero = true := by
  have hsignificand : x.significand = 0 :=
    (Nat.mul_eq_zero.mp h).resolve_right (twoTo_pos x.shift).ne'
  unfold significand at hsignificand
  split at hsignificand
  · simp_all [isZero]
  · omega

theorem IsInteger.units_eq (hx : x.IsInteger n) : x.units = n.natAbs * unitsPerOne := by
  have habs := congrArg Int.natAbs hx.2
  rw [Int.natAbs_mul, Int.natAbs_natCast, signedUnits] at habs
  split at habs <;> simpa using habs

theorem ofNat_eq_ofInt (k : ℕ) : ofNat k = ofInt k := by
  rw [ofNat, ofInt, decide_eq_false (by omega), Int.natAbs_natCast]

/-- **An integer that is a float is not rounded.** Zero may change its sign. -/
theorem IsInteger.ofInt_equal (hx : x.IsInteger n) : (ofInt n).equal x = true := by
  have hnan := isNaN_of_isFinite hx.1
  have hround : ofInt n = x.withSign (decide (n < 0)) := by
    refine nearest_of_units hx.1 Nat.one_pos ?_ _
    rw [mul_one, hx.units_eq]
  rw [hround, equal_iff]
  refine ⟨hnan, hnan, ?_⟩
  rcases eq_or_ne n 0 with rfl | hne
  · have hzero : x.isZero = true := isZero_of_units_eq_zero (by simpa using hx.units_eq)
    exact .inr ⟨hzero, hzero⟩
  · have hone : (0 : ℤ) < unitsPerOne := by exact_mod_cast unitsPerOne_pos
    have hsign : x.negative = decide (n < 0) := by
      have hunits := hx.2
      have hnonneg := Int.natCast_nonneg x.units
      rw [signedUnits] at hunits
      split at hunits
      · rename_i hnegative
        have : n * unitsPerOne ≤ 0 := by omega
        have := nonpos_of_mul_nonpos_left this hone
        rw [hnegative, decide_eq_true (by omega)]
      · rename_i hnegative
        have : 0 ≤ n * unitsPerOne := by omega
        have := nonneg_of_mul_nonneg_left this hone
        rw [Bool.eq_false_iff.mpr hnegative, decide_eq_false (by omega)]
    rw [← hsign]
    exact .inl rfl

end Binary64

namespace Number

variable {x : Binary64}

/-- **The nearest float of a split float is that float.** -/
theorem toBinary64_ofBinary64 (h : x.isNaN = false) :
    (ofBinary64 x).toBinary64.equal x = true := by
  obtain ⟨n, hx, hn, hsplit⟩ | ⟨n, hx, hn, hsplit⟩ | ⟨-, hsplit⟩ := ofBinary64_cases x
  · rw [hsplit, toBinary64, hx.toInt_toInt64 hn.1 hn.2]
    exact hx.ofInt_equal
  · rw [hsplit, toBinary64, Binary64.ofNat_eq_ofInt, hx.toNat_toUInt64 (by omega) hn.2]
    exact hx.ofInt_equal
  · rw [hsplit, toBinary64, Binary64.equal_iff]
    exact ⟨h, h, .inl rfl⟩

theorem isInteger_of_integral {w : Int64} (h : ofBinary64 x = .integral w) :
    x.IsInteger w.toInt := by
  obtain ⟨n, hx, hn, hsplit⟩ | ⟨n, hx, hn, hsplit⟩ | ⟨-, hsplit⟩ := ofBinary64_cases x
  · cases hsplit.symm.trans h
    rwa [hx.toInt_toInt64 hn.1 hn.2]
  · cases hsplit.symm.trans h
  · cases hsplit.symm.trans h

/-- A word without a sign is held only where the signed range ends. -/
theorem isInteger_of_unsigned {w : UInt64} (h : ofBinary64 x = .unsigned w) :
    x.IsInteger w.toNat ∧ 2 ^ 63 ≤ (w.toNat : ℤ) ∧ (w.toNat : ℤ) < 2 ^ 64 := by
  obtain ⟨n, hx, hn, hsplit⟩ | ⟨n, hx, hn, hsplit⟩ | ⟨-, hsplit⟩ := ofBinary64_cases x
  · cases hsplit.symm.trans h
  · cases hsplit.symm.trans h
    rw [hx.toNat_toUInt64 (by omega) hn.2]
    exact ⟨hx, hn⟩
  · cases hsplit.symm.trans h

theorem eq_of_floating {y : Binary64} (h : ofBinary64 x = .floating y) :
    y = x ∧ ¬ ∃ n, x.IsInteger n ∧ Word.Holds n := by
  obtain ⟨n, hx, hn, hsplit⟩ | ⟨n, hx, hn, hsplit⟩ | ⟨hnone, hsplit⟩ := ofBinary64_cases x
  · cases hsplit.symm.trans h
  · cases hsplit.symm.trans h
  · cases hsplit.symm.trans h
    exact ⟨rfl, hnone⟩

/-- **Only NaN and the infinities have no literal.** -/
theorem render_eq_null_iff {number : Number} : number.render = .null ↔
    ∃ y, number = .floating y ∧ (y.isNaN = true ∨ y.isInfinite = true) := by
  cases number with
  | integral w => simp [render]
  | unsigned w => simp [render]
  | floating y =>
    have hrender : (floating y).render = .null ↔ y.isFinite = false := by
      rw [render]
      split <;> simp_all
    rw [hrender, Binary64.isFinite_eq_false_iff]
    simp

/-- **Floats are split exactly.** For every float: it is held as an integer exactly if it is one
of the signed range, without a sign exactly if it is one of the unsigned range beyond that, and
the word is then its exact value; in every other case it is held as it is. The nearest float of
what holds it is the same number. Of all numbers only NaN and the infinities are written as null. -/
theorem ofBinary64_exact :
    (∀ x : Binary64,
      (∀ n : ℤ, (∃ w : Int64, ofBinary64 x = .integral w ∧ w.toInt = n) ↔
        x.IsInteger n ∧ -2 ^ 63 ≤ n ∧ n < 2 ^ 63) ∧
      (∀ n : ℤ, (∃ w : UInt64, ofBinary64 x = .unsigned w ∧ w.toNat = n) ↔
        x.IsInteger n ∧ 2 ^ 63 ≤ n ∧ n < 2 ^ 64) ∧
      (∀ y : Binary64, ofBinary64 x = .floating y ↔
        y = x ∧ ¬ ∃ n : ℤ, x.IsInteger n ∧ -2 ^ 63 ≤ n ∧ n < 2 ^ 64) ∧
      (x.isNaN = false → (ofBinary64 x).toBinary64.equal x = true)) ∧
    ∀ number : Number, number.render = .null ↔
      ∃ y, number = .floating y ∧ (y.isNaN = true ∨ y.isInfinite = true) := by
  refine ⟨fun x => ⟨fun n => ?_, fun n => ?_, fun y => ?_, toBinary64_ofBinary64⟩,
    fun _ => render_eq_null_iff⟩
  · constructor
    · rintro ⟨w, hw, rfl⟩
      exact ⟨isInteger_of_integral hw, w.le_toInt, w.toInt_lt⟩
    · rintro ⟨hx, hn, hn'⟩
      exact ⟨_, ofBinary64_of_signed hx hn hn', hx.toInt_toInt64 hn hn'⟩
  · constructor
    · rintro ⟨w, hw, rfl⟩
      exact isInteger_of_unsigned hw
    · rintro ⟨hx, hn, hn'⟩
      exact ⟨_, ofBinary64_of_unsigned hx hn hn', hx.toNat_toUInt64 (by omega) hn'⟩
  · constructor
    · exact eq_of_floating
    · rintro ⟨rfl, h⟩
      exact ofBinary64_eq_floating h

theorem ofBinary64_exact_bounds :
    (∃ w : UInt64, ofBinary64 (Binary64.powerOfTwo 63) = .unsigned w ∧ w.toNat = (2 ^ 63 : ℤ)) ∧
    ofBinary64 (Binary64.powerOfTwo 64) = .floating (Binary64.powerOfTwo 64) ∧
    ofBinary64 Binary64.nan = .floating Binary64.nan ∧
    ((Binary64.zero true).isNaN = false ∧
      (ofBinary64 (Binary64.zero true)).toBinary64.equal (Binary64.zero true) = true) ∧
    (Number.floating (Binary64.infinity false)).render = .null := by
  obtain ⟨hsplit, hrender⟩ := ofBinary64_exact
  have hbelow : (Binary64.powerOfTwo 63).toInt? = some (2 ^ 63) := by decide +kernel
  have habove : (Binary64.powerOfTwo 64).toInt? = some (2 ^ 64) := by decide +kernel
  refine ⟨((hsplit _).2.1 _).mpr ⟨Binary64.toInt?_eq_some_iff.mp hbelow, by decide⟩,
    ((hsplit _).2.2.1 _).mpr ⟨rfl, ?_⟩, ((hsplit _).2.2.1 _).mpr ⟨rfl, ?_⟩,
    ⟨by decide, (hsplit _).2.2.2 (by decide)⟩, (hrender _).mpr ⟨_, rfl, by decide⟩⟩
  · rintro ⟨n, hx, -, hn⟩
    rw [← Binary64.toInt?_eq_some_iff, habove] at hx
    obtain rfl := Option.some.inj hx
    exact absurd hn (by decide)
  · rintro ⟨n, hx, -⟩
    exact absurd hx.1 (by decide)

end Number
end Aggregation
