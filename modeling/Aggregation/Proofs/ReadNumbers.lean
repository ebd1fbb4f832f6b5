import Aggregation.Json.Numeral
import Aggregation.Proofs.Faults
import Aggregation.Proofs.JsonTrees

/-!
# Numerals are read as finite numbers

A significand of 64 bits is scaled by powers of ten. Downwards the number only gets smaller
than the bound it starts with. Upwards an overflow is a fault of the text. So what a numeral
is read as, is an integer of 64 bits or a finite float.
-/

namespace Aggregation

theorem tenTo_eq (n : ℕ) : tenTo n = 10 ^ n := rfl

namespace Binary64

@[simp] theorem isFinite_withSign (x : Binary64) (negative : Bool) :
    (x.withSign negative).isFinite = x.isFinite := rfl

theorem isInfinite_infinity (negative : Bool) : (infinity negative).isInfinite = true := by
  cases negative <;> decide

/-- A product is finite, or it overflows. -/
theorem isFinite_mul {x y : Binary64} (h : (x * y).isInfinite = false) :
    (x * y).isFinite = true := by
  have hden : 0 < unitsPerOne * unitsPerOne := Nat.mul_pos unitsPerOne_pos unitsPerOne_pos
  rw [show x * y = mul x y from rfl, mul] at h ⊢
  refine (nearest_isFinite_or_eq_infinity _ hden).resolve_right fun hinfinity => ?_
  rw [hinfinity, isInfinite_infinity] at h
  contradiction

/-- The number is finite and at most `2 ^ 64`. -/
def Small (x : Binary64) : Prop := x.isFinite = true ∧ x.units ≤ 2 ^ 64 * unitsPerOne

/-- What is at most `2 ^ 64` rounds to a number that is at most that. -/
theorem nearest_small (negative : Bool) {num den : ℕ} (hden : 0 < den)
    (hle : num ≤ 2 ^ 64 * den) : (nearest negative num den).Small := by
  have hfinite := fun sign => nearest_isFinite_of_le sign (show 64 ≤ 1022 by decide) hden hle
  refine ⟨hfinite negative, ?_⟩
  have hunits := fun sign => nearest_of_lt sign hden ((nearest_isFinite_iff sign hden).mp
    (hfinite sign))
  obtain ⟨hbound, hpower⟩ := powerOfTwo_eq (show 64 ≤ 1023 by decide)
  have hnear := nearest_isNearest hden (hfinite false)
  have hscaled : num * unitsPerOne ≤ 2 ^ 64 * unitsPerOne * den := by
    rw [Nat.mul_right_comm]
    exact Nat.mul_le_mul_right unitsPerOne hle
  have hsigned := hnear.le_of_ge hden hbound (by
    rw [hpower]
    exact_mod_cast hscaled)
  rw [signedUnits_of_nonneg (hunits false).1, hpower, (hunits false).2.2.1] at hsigned
  rw [(hunits negative).2.2.1]
  exact_mod_cast hsigned

theorem ofNat_small {n : ℕ} (hn : n < 2 ^ 64) : (ofNat n).Small := by
  rw [ofNat]
  exact nearest_small false Nat.one_pos (by omega)

/-- Dividing by a number that is at least one makes no number larger. -/
theorem Small.div {x y : Binary64} (hx : x.Small) (hy : unitsPerOne ≤ y.units) :
    (x / y).Small := by
  rw [show x / y = Binary64.div x y from rfl, Binary64.div]
  exact nearest_small _ (unitsPerOne_pos.trans_le hy) (hx.2.trans (Nat.mul_le_mul_left _ hy))

/-- The powers of ten that numerals are scaled by are finite and at least one. -/
theorem powerOfTen_eq {k : ℕ} (hk : k ≤ 308) :
    (powerOfTen k).isFinite = true ∧ unitsPerOne ≤ (powerOfTen k).units := by
  have hlarge : 10 ^ 308 < 2 ^ 1024 - 2 ^ 970 := by decide +kernel
  have hfinite : (powerOfTen k).isFinite = true := by
    rw [powerOfTen, ofNat_isFinite_iff, tenTo_eq]
    exact lt_of_le_of_lt (pow_le_pow_right₀ (by decide) hk) hlarge
  refine ⟨hfinite, ?_⟩
  obtain ⟨hone, hunits⟩ := powerOfTwo_eq (Nat.zero_le 1023)
  have hnear : (powerOfTen k).IsNearest (tenTo k) 1 := nearest_isNearest Nat.one_pos hfinite
  have hle := hnear.le_of_le Nat.one_pos hone (by
    rw [hunits, pow_zero, Nat.cast_one, mul_one]
    have hten : (1 : ℤ) ≤ tenTo k := by exact_mod_cast tenTo_pos k
    exact mul_le_mul_of_nonneg_right hten (Int.natCast_nonneg _))
  have hsign : (powerOfTen k).negative = false := (nearest_of_lt false Nat.one_pos
    ((nearest_isFinite_iff false Nat.one_pos).mp hfinite)).1
  rw [hunits, pow_zero, one_mul, signedUnits_of_nonneg hsign] at hle
  exact_mod_cast hle

end Binary64

namespace Json

open Binary64 (Small)

variable {negative : Bool} {significand : ℕ} {exponent : ℤ} {text rest : List Char} {j : Json}

theorem divideDown_small (times : ℕ) {x : Binary64} (hx : x.Small) :
    (divideDown times x).Small := by
  induction times generalizing x with
  | zero => exact hx
  | succ times ih =>
    rw [divideDown]
    split
    · exact hx
    · exact ih (hx.div (Binary64.powerOfTen_eq (Nat.le_refl 308)).2)

/-- Scaling gives a finite number, or it is refused. -/
theorem isFinite_of_scaled {x : Binary64} (hs : significand < 2 ^ 64)
    (h : scaled significand exponent = .ok x) : x.isFinite = true := by
  have hsmall := Binary64.ofNat_small hs
  rw [scaled] at h
  generalize Binary64.ofNat significand = y at h hsmall
  dsimp only at h
  split at h
  · split at h
    · split at h
      · cases h
        exact hsmall.1
      · cases h
    · split at h
      · cases h
      · rename_i hinfinite
        rw [← Except.ok.inj h]
        exact Binary64.isFinite_mul (Bool.eq_false_iff.mpr hinfinite)
  · rw [← Except.ok.inj h]
    exact ((divideDown_small _ hsmall).div (Binary64.powerOfTen_eq (by omega)).2).1

theorem absorb_lt (hs : significand < 2 ^ 64) (digits : List Char) :
    (absorb significand digits).1 < 2 ^ 64 := by
  induction digits generalizing significand with
  | nil => exact hs
  | cons c digits ih =>
    rw [absorb]
    split
    · rename_i hnext
      exact ih hnext
    · exact hs

theorem wellFormed_integerNumeral (hs : significand < 2 ^ 64) :
    (integerNumeral negative significand).WellFormed := by
  rw [integerNumeral]
  split
  · exact .integer ⟨by omega, by exact_mod_cast hs⟩
  · split
    · refine .float ?_
      rw [Binary64.isFinite_withSign]
      exact (Binary64.ofNat_small hs).1
    · exact .integer ⟨by omega, by omega⟩

theorem wellFormed_of_readExponent (hs : significand < 2 ^ 64)
    (h : readExponent negative significand exponent text = .ok (j, rest)) : j.WellFormed := by
  have hfinish : ∀ {written : ℤ} {left : List Char}, (do
      let x ← scaled significand (exponent + written)
      return (Json.float (x.withSign negative), left)) = Except.ok (j, rest) → j.WellFormed := by
    intro written left hread
    obtain ⟨x, hx, hj⟩ := Fault.bind_eq_ok.mp hread
    cases hj
    refine .float ?_
    rw [Binary64.isFinite_withSign]
    exact isFinite_of_scaled hs hx
  unfold readExponent at h
  dsimp only at h
  split at h
  · split at h
    · split at h
      all_goals
        dsimp only at h
        split at h
        · cases h
        · exact hfinish h
    · exact hfinish h
  · exact hfinish h

theorem wellFormed_of_readNumeral (h : readNumeral negative text = .ok (j, rest)) :
    j.WellFormed := by
  have habsorb := fun digits => absorb_lt (show 0 < 2 ^ 64 by decide) digits
  unfold readNumeral at h
  dsimp only at h
  split at h
  · cases h
  · cases h
  · split at h
    · split at h
      · cases h
      · exact wellFormed_of_readExponent (absorb_lt (habsorb _) _) h
    · split at h
      · cases h
        exact wellFormed_integerNumeral (habsorb _)
      · exact wellFormed_of_readExponent (habsorb _) h
    · split at h
      · cases h
        exact wellFormed_integerNumeral (habsorb _)
      · exact wellFormed_of_readExponent (habsorb _) h

end Json
end Aggregation
