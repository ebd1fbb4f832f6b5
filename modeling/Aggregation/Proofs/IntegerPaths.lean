import Aggregation.Proofs.DecimalFloats
import Aggregation.Proofs.HostParts
import Aggregation.Proofs.Normalization

/-!
# Every way to hold an integer

An integer may come as a word with or without a sign, as a JSON number, as a float or a decimal
without a fraction, or spelled in digits. Each form is split by its own comparisons with the
bounds of 64 bits, and all of them give the same JSON integer. A decimal that is no such integer
goes on the wire as a finite float.

## Main definitions

* `Host.HoldsInteger` - the ways in which a host value is exactly an integer.

## Main results

* `Host.render_of_holdsInteger` - one integer, whichever way it came.
* `Host.render_integers_agree` - the same with what other decimals give.
-/

namespace Aggregation

/-- A word without a sign is written as the integer it is. -/
theorem Value.render_ofUInt64 (n : UInt64) :
    (Value.ofUInt64 n).render = .ok (.integer n.toNat) := by
  cases hsigned : Word.signed? n.toNat with
  | some w => rw [ofUInt64_of_some hsigned, render_integer, Word.toInt_of_signed? hsigned]
  | none => rw [ofUInt64_of_none hsigned, render_number, Number.render]

namespace Host

/-- The host value is exactly the integer, in one of the forms that callers can supply. Words of
32 bits are widened; digits may have zeros in front, and a decimal zeros behind. -/
inductive HoldsInteger : Host → ℤ → Prop
  | int64 (n : Int64) : HoldsInteger (.integer n) n.toInt
  | int32 (n : Int32) : HoldsInteger (.integer n.toInt64) n.toInt
  | uint32 (n : UInt32) : HoldsInteger (.integer (.ofNat n.toNat)) n.toNat
  | uint64 (n : UInt64) : HoldsInteger (.ofUInt64 n) n.toNat
  | unsigned (n : UInt64) : HoldsInteger (.unsigned n) n.toNat
  | jsonInteger (n : ℤ) : HoldsInteger (.ofJson (.integer n)) n
  | jsonFloat {x : Binary64} {n : ℤ} : x.IsInteger n → HoldsInteger (.ofJson (.float x)) n
  | float {x : Binary64} {n : ℤ} : x.IsInteger n → HoldsInteger (.float x) n
  | decimal {d : Decimal} {n : ℤ} : d.value = n → HoldsInteger (.decimal d) n
  | string {s : String} {n : ℕ} : Json.Spells s n → HoldsInteger (.string s) n

variable {host : Host} {n : ℤ}

theorem render_integer (n : Int64) : (Host.integer n).render = .ok (.integer n.toInt) := by
  rw [render_of_typed (by rw [coerce]), Value.render_integer]

theorem render_unsigned (n : UInt64) : (Host.unsigned n).render = .ok (.integer n.toNat) := by
  rw [render_of_typed (by rw [coerce]), Value.render_ofUInt64]

theorem render_ofUInt64 (n : UInt64) : (Host.ofUInt64 n).render = .ok (.integer n.toNat) := by
  cases hsigned : Word.signed? n.toNat with
  | some w =>
    rw [ofUInt64, hsigned, Option.map_some, Option.getD_some, render_integer,
      Word.toInt_of_signed? hsigned]
  | none => rw [ofUInt64, hsigned, Option.map_none, Option.getD_none, render_unsigned]

theorem render_float {x : Binary64} (hx : x.IsInteger n) (hn : Word.Holds n) :
    (Host.float x).render = .ok (.integer n) := by
  rw [render_of_typed (coerce_float x), Value.render_number,
    Number.render_ofBinary64_of_integer hx hn]

theorem render_decimal (d : Decimal) :
    (Host.decimal d).render = .ok (Number.ofDecimal d).render := by
  rw [render_of_typed (coerce_decimal d), Value.render_number]

theorem render_string {s : String} {n : ℕ} (hs : Json.Spells s n) (hn : n < 2 ^ 64) :
    (Host.string s).render = .ok (.integer n) := by
  obtain ⟨hnumeral, rfl⟩ := hs
  rw [render_of_typed (by rw [coerce]), Value.ofString, if_pos hnumeral, Value.render_number,
    Number.render_ofDigits_of_lt hn]

/-- **All numeric entry paths agree on integers.** -/
theorem render_of_holdsInteger (h : HoldsInteger host n) (hn : Word.Holds n) :
    host.render = .ok (.integer n) := by
  cases h with
  | int64 n => exact render_integer n
  | int32 n => rw [render_integer, Int32.toInt_toInt64]
  | uint32 n => rw [render_integer, Int64.toInt_ofNat_of_lt (by have := n.toNat_lt; omega)]
  | uint64 n => exact render_ofUInt64 n
  | unsigned n => exact render_unsigned n
  | jsonInteger n => exact Json.recode_integer_of_holds hn
  | jsonFloat hx =>
    rw [ofJson_float]
    exact render_float hx hn
  | float hx => exact render_float hx hn
  | decimal hd => rw [render_decimal, Number.render_ofDecimal_of_integer hd hn]
  | string hs => exact render_string hs (by exact_mod_cast hn.2)

/-- A decimal that is no integer of 64 bits is written as a finite float. -/
theorem render_decimal_of_not_isWord {d : Decimal} (h : ¬ d.IsWord) :
    (Host.decimal d).render = .ok (.float d.toBinary64) := by
  rw [render_decimal, Number.ofDecimal_eq_floating h, Number.render,
    if_pos d.isFinite_toBinary64]

/-- **All numeric entry paths agree on integers**: whichever way a host value holds an integer of
64 bits, it is rendered as that integer. A decimal of any other value, be it for a fraction or out
of range, is rendered as a finite float. -/
theorem render_integers_agree :
    (∀ (host : Host) (n : ℤ), HoldsInteger host n → Word.Holds n →
      host.coerce.render = .ok (.integer n)) ∧
    (∀ d : Decimal, (¬ ∃ n : ℤ, Word.Holds n ∧ d.value = n) →
      d.toBinary64.isFinite = true ∧
        (Host.decimal d).coerce.render = .ok (.float d.toBinary64)) :=
  ⟨fun _ _ h hn => render_of_holdsInteger h hn,
    fun d h => ⟨d.isFinite_toBinary64, render_decimal_of_not_isWord h⟩⟩

/-- The float `-2 ^ 63`. -/
def leastWord : Binary64 := ⟨true, ⟨1086, by decide⟩, ⟨0, by decide⟩⟩

/-- The decimal `2 ^ 64`. -/
def twoTo64 : Decimal := ⟨18446744073709551616, 0, by decide, by decide⟩

theorem render_integers_agree_bounds :
    (Host.float leastWord).coerce.render = .ok (.integer (-2 ^ 63)) ∧
    (Host.unsigned 7).coerce.render = .ok (.integer 7) ∧
    (Host.string "009223372036854775808").coerce.render = .ok (.integer (2 ^ 63)) ∧
    (Host.decimal ⟨1844674407370955161500, 2, by decide, by decide⟩).coerce.render =
      .ok (.integer (2 ^ 64 - 1)) ∧
    (twoTo64.toBinary64.isFinite = true ∧
      (Host.decimal twoTo64).coerce.render = .ok (.float twoTo64.toBinary64)) := by
  obtain ⟨hinteger, hfloat⟩ := render_integers_agree
  refine ⟨hinteger _ _ (.float (Binary64.toInt?_eq_some_iff.mp ?_)) (by decide),
    hinteger _ _ (.unsigned 7) (by decide),
    hinteger _ _ (.string (n := 2 ^ 63) ⟨by decide +kernel, by decide +kernel⟩) (by decide),
    hinteger _ _ (.decimal (Decimal.toInt?_eq_some_iff.mp ?_)) (by decide), hfloat _ ?_⟩
  · decide +kernel
  · decide +kernel
  · rintro ⟨n, hn, hvalue⟩
    rw [← Decimal.toInt?_eq_some_iff] at hvalue
    have hpower : twoTo64.toInt? = some (2 ^ 64) := by decide +kernel
    obtain rfl := Option.some.inj (hpower.symm.trans hvalue)
    exact absurd hn (by decide)

end Host
end Aggregation
