import Aggregation.Proofs.Numbers
import Mathlib.Data.Rat.Cast.Order
import Mathlib.Tactic.FieldSimp

/-!
# The value of a decimal

A decimal stands for a rational number; its scale only says how it is written. Two decimals are
equal when their values are, and the fraction of a decimal is zero when its value is an integer.
So which number of 64 bits a decimal is, if it is one, depends on its value alone.

## Main definitions

* `Decimal.value` - the number that a decimal stands for.

## Main results

* `Decimal.equal_iff` - equality is that of the values.
* `Number.render_ofDecimal_of_integer`, `Number.ofDecimal_eq_floating` - the two ways that a
  decimal goes on the wire.
-/

namespace Aggregation

namespace Decimal

variable {d e : Decimal} {n : ℤ}

/-- The number that a decimal stands for. -/
def value (d : Decimal) : ℚ := d.mantissa / d.denominator

theorem denominator_pos (d : Decimal) : 0 < d.denominator := tenTo_pos d.scale

theorem denominator_cast_pos (d : Decimal) : (0 : ℚ) < d.denominator := by
  exact_mod_cast d.denominator_pos

/-- **Decimals are compared by value.** -/
theorem equal_iff : d.equal e = true ↔ d.value = e.value := by
  rw [equal, beq_iff_eq, value, value,
    div_eq_div_iff d.denominator_cast_pos.ne' e.denominator_cast_pos.ne']
  exact_mod_cast Iff.rfl

/-- Among the decimals of one scale the value has one. -/
theorem eq_of_scale_eq (hscale : d.scale = e.scale) (h : d.value = e.value) : d = e := by
  have hmantissa : d.mantissa = e.mantissa := by
    rw [value, value, denominator, denominator, hscale] at h
    exact_mod_cast (div_left_inj' e.denominator_cast_pos.ne').mp h
  cases d
  cases e
  congr

/-- **The fraction is zero when the value is an integer**, whatever the scale. -/
theorem toInt?_eq_some_iff : d.toInt? = some n ↔ d.value = n := by
  have hpos : (d.denominator : ℤ) ≠ 0 := by exact_mod_cast d.denominator_pos.ne'
  have hvalue : d.value = n ↔ d.mantissa = n * d.denominator := by
    rw [value, div_eq_iff d.denominator_cast_pos.ne']
    exact_mod_cast Iff.rfl
  rw [hvalue, toInt?]
  constructor
  · intro h
    split at h
    · rename_i hfraction
      rw [← Option.some.inj h]
      exact (Int.ediv_mul_cancel (Int.dvd_of_emod_eq_zero hfraction)).symm
    · contradiction
  · intro h
    rw [h, if_pos (Int.mul_emod_left _ _), Int.mul_ediv_cancel _ hpos]

/-- The value is an integer of 64 bits. -/
def IsWord (d : Decimal) : Prop := ∃ n : ℤ, Word.Holds n ∧ d.value = n

end Decimal

namespace Number

variable {d : Decimal} {n : ℤ}

theorem ofInt?_eq_ofDecimal (hd : d.value = n) (hn : Word.Holds n) :
    ofInt? n = some (ofDecimal d) := by
  cases hnumber : ofInt? n with
  | none => exact absurd hn (ofInt?_eq_none_iff.mp hnumber)
  | some number =>
    rw [ofDecimal, Decimal.toInt?_eq_some_iff.mpr hd, Option.bind_some, hnumber, Option.getD_some]

/-- **A decimal that is an integer of 64 bits is written as that integer.** -/
theorem render_ofDecimal_of_integer (hd : d.value = n) (hn : Word.Holds n) :
    (ofDecimal d).render = .integer n :=
  render_of_ofInt? (ofInt?_eq_ofDecimal hd hn)

/-- **Any other decimal makes a float.** -/
theorem ofDecimal_eq_floating (h : ¬ d.IsWord) : ofDecimal d = .floating d.toBinary64 := by
  cases hint : d.toInt? with
  | none => rw [ofDecimal, hint, Option.bind_none, Option.getD_none]
  | some n =>
    have hn : ofInt? n = none :=
      ofInt?_eq_none_iff.mpr fun hn => h ⟨n, hn, Decimal.toInt?_eq_some_iff.mp hint⟩
    rw [ofDecimal, hint, Option.bind_some, hn, Option.getD_none]

end Number
end Aggregation
