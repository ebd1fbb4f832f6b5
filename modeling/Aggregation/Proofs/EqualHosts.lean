import Aggregation.Coercion
import Aggregation.Equality
import Aggregation.Proofs.DecimalFloats

/-!
# Equal host values have equal typed forms, decimals apart

Equality of host values looks through the sign of a zero, the scale of a decimal and the order of
keys. Coercion keeps what is equal equal, at any depth, with one exception: a decimal that is no
integer of 64 bits makes a float, and the float may depend on the scale in its last places. So
equal host values are told apart by coercion exactly when, somewhere in them, two decimals of one
value stand in the same place and make different floats. Decimals of one scale never do, and
neither do short ones.

## Main definitions

* `Host.Facing` - two decimals in the same place of two host values.

## Main results

* `Number.ofBinary64_equal`, `Number.ofDecimal_equal_iff` - equal floats and equal decimals.
* `Host.coerce_equal_iff` - coercion of equal host values, down to the decimals.
* `Host.equal_coerce_iff_of_equal` - when coercion respects equality.
-/

namespace Aggregation

/-! ## Numbers -/

namespace Binary64

variable {x y : Binary64}

theorem isNaN_nearest (negative : Bool) (num : ℕ) {den : ℕ} (hden : 0 < den) :
    (nearest negative num den).isNaN = false := by
  rcases nearest_isFinite_or_eq_infinity negative hden with hfinite | hinfinity
  · exact isNaN_of_isFinite hfinite
  · rw [hinfinity]
    rfl

theorem equal_self (h : x.isNaN = false) : x.equal x = true := equal_iff.mpr ⟨h, h, .inl rfl⟩

theorem isInteger_of_isZero (h : x.isZero = true) : x.IsInteger 0 := by
  have hunits := units_eq_zero_of_isZero h
  rw [isZero, Bool.and_eq_true, beq_iff_eq] at h
  refine ⟨?_, ?_⟩
  · rw [isFinite, h.1]
    rfl
  · rw [signedUnits, hunits, Int.zero_mul]
    split <;> rfl

end Binary64

namespace Number

variable {x y : Binary64} {d e : Decimal}

theorem equal_self_of_ofInt? {n : ℤ} {number : Number} (h : ofInt? n = some number) :
    number.equal number = true := by
  unfold ofInt? at h
  split at h
  · cases h
    rw [equal, beq_self_eq_true]
  · cases h
    rw [equal, beq_self_eq_true]
  · cases h

theorem equal_ofBinary64_self (h : x.isNaN = false) :
    (ofBinary64 x).equal (ofBinary64 x) = true := by
  obtain ⟨n, -, -, hsplit⟩ | ⟨n, -, -, hsplit⟩ | ⟨-, hsplit⟩ := ofBinary64_cases x
  · rw [hsplit, equal, beq_self_eq_true]
  · rw [hsplit, equal, beq_self_eq_true]
  · rw [hsplit, equal]
    exact Binary64.equal_self h

/-- Both zeros are the integer zero. -/
theorem ofBinary64_of_isZero (h : x.isZero = true) : ofBinary64 x = .integral 0 := by
  have hzero := Binary64.isInteger_of_isZero h
  have hword : x.toInt64 = 0 :=
    Int64.toInt_inj.mp (hzero.toInt_toInt64 (by decide) (by decide))
  rw [ofBinary64_of_signed hzero (by decide) (by decide), hword]

/-- **Equal floats make equal numbers.** -/
theorem ofBinary64_equal (h : x.equal y = true) :
    (ofBinary64 x).equal (ofBinary64 y) = true := by
  obtain ⟨hx, -, rfl | ⟨hxzero, hyzero⟩⟩ := Binary64.equal_iff.mp h
  · exact equal_ofBinary64_self hx
  · rw [ofBinary64_of_isZero hxzero, ofBinary64_of_isZero hyzero]
    rfl

theorem equal_ofDigits_self (digits : List Char) :
    (ofDigits digits).equal (ofDigits digits) = true := by
  unfold ofDigits
  dsimp only
  cases hnumber : ofInt? (Digits.value digits) with
  | none =>
    rw [Option.getD_none]
    refine equal_ofBinary64_self ?_
    rw [Binary64.ofNat]
    exact Binary64.isNaN_nearest _ _ Nat.one_pos
  | some number =>
    rw [Option.getD_some]
    exact equal_self_of_ofInt? hnumber

/-- **Decimals of one value make equal numbers** when the value is an integer of 64 bits, and else
when they make the same float. -/
theorem ofDecimal_equal_iff (h : d.value = e.value) :
    (ofDecimal d).equal (ofDecimal e) = true ↔ d.IsWord ∨ d.toBinary64 = e.toBinary64 := by
  by_cases hword : d.IsWord
  · obtain ⟨n, hn, hd⟩ := hword
    have hsome := ofInt?_eq_ofDecimal hd hn
    have heq : ofDecimal e = ofDecimal d :=
      Option.some.inj ((ofInt?_eq_ofDecimal (h ▸ hd) hn).symm.trans hsome)
    rw [heq]
    exact iff_of_true (equal_self_of_ofInt? hsome) (.inl ⟨n, hn, hd⟩)
  · have hword' : ¬ e.IsWord := by
      rwa [Decimal.IsWord, ← h]
    have hvalue : d.value ≠ 0 := fun hzero => hword ⟨0, by decide, by rw [hzero, Int.cast_zero]⟩
    have hnan := Binary64.isNaN_of_isFinite d.isFinite_toBinary64
    have hnan' := Binary64.isNaN_of_isFinite e.isFinite_toBinary64
    rw [ofDecimal_eq_floating hword, ofDecimal_eq_floating hword', equal, Binary64.equal_iff,
      Decimal.isZero_toBinary64 hvalue]
    simp [hnan, hnan', hword]

end Number

/-! ## Host values -/

namespace Value

theorem equal_ofUInt64_self (n : UInt64) : (ofUInt64 n).equal (ofUInt64 n) = true := by
  rw [ofUInt64]
  cases Word.signed? n.toNat
  · rw [Option.map_none, Option.getD_none, equal, Number.equal, beq_self_eq_true]
  · rw [Option.map_some, Option.getD_some, equal, beq_self_eq_true]

theorem equal_ofString_self (s : String) : (ofString s).equal (ofString s) = true := by
  rw [ofString]
  split
  · rw [equal]
    exact Number.equal_ofDigits_self _
  · rw [equal, beq_self_eq_true]

end Value

namespace Host

/-- The two decimals stand in the same place of the two host values. -/
inductive Facing (d e : Decimal) : Host → Host → Prop
  | here : Facing d e (.decimal d) (.decimal e)
  | item {items items' : List Host} {pair : Host × Host} : pair ∈ items.zip items' →
    Facing d e pair.1 pair.2 → Facing d e (.sequence items) (.sequence items')
  | entry {entries entries' : Entries Host} {pair : (String × Host) × String × Host} :
    pair ∈ entries.zip entries' → Facing d e pair.1.2 pair.2.2 →
      Facing d e (.mapping entries) (.mapping entries')

variable {a b : Host} {d e : Decimal}

theorem equal_of_mem_zip {items items' : List Host} (h : equalItems items items' = true) :
    ∀ pair ∈ items.zip items', pair.1.equal pair.2 = true := by
  induction items generalizing items' with
  | nil => simp
  | cons item items ih =>
    cases items' with
    | nil => simp
    | cons item' items' =>
      rw [equalItems, Bool.and_eq_true] at h
      rw [List.zip_cons_cons, List.forall_mem_cons]
      exact ⟨h.1, ih h.2⟩

theorem equal_of_mem_zip_entries {entries entries' : Entries Host}
    (h : equalEntries entries entries' = true) :
    ∀ pair ∈ entries.zip entries', pair.1.2.equal pair.2.2 = true := by
  induction entries generalizing entries' with
  | nil => simp
  | cons entry entries ih =>
    cases entries' with
    | nil => simp
    | cons entry' entries' =>
      rw [equalEntries, Bool.and_eq_true, Bool.and_eq_true] at h
      rw [List.zip_cons_cons, List.forall_mem_cons]
      exact ⟨h.1.2, ih h.2⟩

/-- Decimals in the same place of equal host values have one value. -/
theorem Facing.value_eq (hfacing : Facing d e a b) (h : a.equal b = true) :
    d.value = e.value := by
  induction hfacing with
  | here =>
    rw [equal] at h
    exact Decimal.equal_iff.mp h
  | item hmem _ ih =>
    rw [equal] at h
    exact ih (equal_of_mem_zip h _ hmem)
  | entry hmem _ ih =>
    rw [equal] at h
    exact ih (equal_of_mem_zip_entries h _ hmem)

theorem facing_decimal_iff {d' e' : Decimal} :
    Facing d e (.decimal d') (.decimal e') ↔ d = d' ∧ e = e' := by
  constructor
  · rintro ⟨⟩
    exact ⟨rfl, rfl⟩
  · rintro ⟨rfl, rfl⟩
    exact .here

theorem facing_sequence_iff {items items' : List Host} :
    Facing d e (.sequence items) (.sequence items') ↔
      ∃ pair ∈ items.zip items', Facing d e pair.1 pair.2 := by
  constructor
  · rintro (_ | ⟨hmem, h⟩)
    exact ⟨_, hmem, h⟩
  · rintro ⟨_, hmem, h⟩
    exact .item hmem h

theorem facing_mapping_iff {entries entries' : Entries Host} :
    Facing d e (.mapping entries) (.mapping entries') ↔
      ∃ pair ∈ entries.zip entries', Facing d e pair.1.2 pair.2.2 := by
  constructor
  · rintro (_ | _ | ⟨hmem, h⟩)
    exact ⟨_, hmem, h⟩
  · rintro ⟨_, hmem, h⟩
    exact .entry hmem h

mutual

/-- **Coercion keeps equal host values equal, down to the decimals** that face each other. -/
theorem coerce_equal_iff (a b : Host) (h : a.equal b = true) :
    a.coerce.equal b.coerce = true ↔
      ∀ d e, Facing d e a b → (Number.ofDecimal d).equal (.ofDecimal e) = true := by
  cases a with
  | value v =>
    cases b <;> simp only [equal, Bool.false_eq_true] at h
    rw [coerce, coerce, Coerced.equal]
    exact iff_of_true h (by rintro _ _ ⟨⟩)
  | boolean v | integer v | date v =>
    cases b <;> simp only [equal, Bool.false_eq_true] at h
    rw [coerce, coerce, Coerced.equal, Value.equal]
    exact iff_of_true h (by rintro _ _ ⟨⟩)
  | unsigned n =>
    cases b <;> simp only [equal, Bool.false_eq_true, beq_iff_eq] at h
    rw [h, coerce, Coerced.equal]
    exact iff_of_true (Value.equal_ofUInt64_self _) (by rintro _ _ ⟨⟩)
  | float x =>
    cases b <;> simp only [equal, Bool.false_eq_true] at h
    rw [coerce_float, coerce_float, Coerced.equal, Value.equal]
    exact iff_of_true (Number.ofBinary64_equal h) (by rintro _ _ ⟨⟩)
  | decimal d =>
    cases b <;> simp only [equal, Bool.false_eq_true] at h
    rw [coerce_decimal, coerce_decimal, Coerced.equal, Value.equal]
    simp [facing_decimal_iff]
  | string s =>
    cases b <;> simp only [equal, Bool.false_eq_true, beq_iff_eq] at h
    rw [h, coerce, Coerced.equal]
    exact iff_of_true (Value.equal_ofString_self _) (by rintro _ _ ⟨⟩)
  | sequence items =>
    cases b <;> simp only [equal, Bool.false_eq_true] at h
    rw [coerce, coerce, Coerced.equal, Value.equal_array, coerceItems_equal_iff items _ h]
    simp only [facing_sequence_iff]
    exact ⟨fun hall d e ⟨pair, hmem, hfacing⟩ => hall pair hmem d e hfacing,
      fun hall pair hmem d e hfacing => hall d e ⟨pair, hmem, hfacing⟩⟩
  | mapping entries =>
    cases b <;> simp only [equal, Bool.false_eq_true] at h
    rw [coerce, coerce, Coerced.equal, Value.equal, coerceEntries_equal_iff entries _ h]
    simp only [facing_mapping_iff]
    exact ⟨fun hall d e ⟨pair, hmem, hfacing⟩ => hall pair hmem d e hfacing,
      fun hall pair hmem d e hfacing => hall d e ⟨pair, hmem, hfacing⟩⟩
  | stage s =>
    cases b <;> simp only [equal, Bool.false_eq_true] at h
    rw [coerce, coerce, Coerced.equal, equal]
    exact iff_of_true h (by rintro _ _ ⟨⟩)
  | null =>
    cases b <;> simp only [equal, Bool.false_eq_true] at h
    rw [coerce, Coerced.equal, equal]
    exact iff_of_true rfl (by rintro _ _ ⟨⟩)

theorem coerceItems_equal_iff (items items' : List Host) (h : equalItems items items' = true) :
    Coerced.equalItems (coerceItems items) (coerceItems items') = true ↔
      ∀ pair ∈ items.zip items', ∀ d e, Facing d e pair.1 pair.2 →
        (Number.ofDecimal d).equal (.ofDecimal e) = true := by
  match items, items' with
  | [], [] => simp [coerceItems, Coerced.equalItems]
  | [], _ :: _ => simp [equalItems] at h
  | _ :: _, [] => simp [equalItems] at h
  | item :: items, item' :: items' =>
    rw [equalItems, Bool.and_eq_true] at h
    rw [coerceItems, coerceItems, Coerced.equalItems, Bool.and_eq_true,
      coerce_equal_iff item item' h.1, coerceItems_equal_iff items items' h.2, List.zip_cons_cons,
      List.forall_mem_cons]

theorem coerceEntries_equal_iff (entries entries' : List (String × Host))
    (h : equalEntries entries entries' = true) :
    Coerced.equalEntries (coerceEntries entries) (coerceEntries entries') = true ↔
      ∀ pair ∈ entries.zip entries', ∀ d e, Facing d e pair.1.2 pair.2.2 →
        (Number.ofDecimal d).equal (.ofDecimal e) = true := by
  match entries, entries' with
  | [], [] => simp [coerceEntries, Coerced.equalEntries]
  | [], _ :: _ => simp [equalEntries] at h
  | _ :: _, [] => simp [equalEntries] at h
  | (name, host) :: entries, (name', host') :: entries' =>
    rw [equalEntries, Bool.and_eq_true, Bool.and_eq_true] at h
    rw [coerceEntries, coerceEntries, Coerced.equalEntries, h.1.1, Bool.true_and,
      Bool.and_eq_true, coerce_equal_iff host host' h.1.2,
      coerceEntries_equal_iff entries entries' h.2, List.zip_cons_cons, List.forall_mem_cons]

end

/-- **Coercion respects equality up to the rounding of decimals.** Equal host values have equal
typed forms exactly when all decimals that face each other are an integer of 64 bits or make the
same float. Decimals that face each other have one value. Their floats are finite, have its sign
and are off by at most a part in `2 ^ 48` each; and they are the same float when the scales are
the same or both decimals are short. -/
theorem equal_coerce_iff_of_equal {a b : Host} (h : a.equal b = true) :
    (a.coerce.equal b.coerce = true ↔
      ∀ d e, Facing d e a b → d.IsWord ∨ d.toBinary64 = e.toBinary64) ∧
    ∀ d e, Facing d e a b →
      d.value = e.value ∧
      d.toBinary64.isFinite = true ∧ e.toBinary64.isFinite = true ∧
      d.toBinary64.negative = decide (d.value < 0) ∧
      e.toBinary64.negative = decide (d.value < 0) ∧
      |d.toBinary64.value - d.value| ≤ |d.value| / 2 ^ 48 ∧
      |e.toBinary64.value - d.value| ≤ |d.value| / 2 ^ 48 ∧
      (d.scale = e.scale ∨ d.Short ∧ e.Short → d.toBinary64 = e.toBinary64) := by
  constructor
  · rw [coerce_equal_iff a b h]
    exact forall₃_congr fun d e hfacing => Number.ofDecimal_equal_iff (hfacing.value_eq h)
  · intro d e hfacing
    have hvalue := hfacing.value_eq h
    refine ⟨hvalue, d.isFinite_toBinary64, e.isFinite_toBinary64, d.negative_toBinary64, ?_,
      d.abs_toBinary64_sub_le, ?_, ?_⟩
    · rw [hvalue]
      exact e.negative_toBinary64
    · rw [hvalue]
      exact e.abs_toBinary64_sub_le
    · rintro (hscale | ⟨hd, he⟩)
      · rw [Decimal.eq_of_scale_eq hscale hvalue]
      · exact Decimal.toBinary64_eq_of_short hd he hvalue

/-- A price, given with some more places, and a zero of either sign. -/
def priced (price : Decimal) (negative : Bool) : Host :=
  .mapping [("price", .decimal price), ("zeros", .sequence [.float (.zero negative), .null])]

theorem equal_coerce_iff_of_equal_priced :
    let a := priced ⟨25, 2, by decide, by decide⟩ true
    let b := priced ⟨2500, 4, by decide, by decide⟩ false
    a.equal b = true ∧ a.coerce.equal b.coerce = true := by
  intro a b
  have hequal : a.equal b = true := by
    simp [a, b, priced, equal, equalEntries, equalItems, Decimal.equal, Decimal.denominator,
      tenTo, Binary64.equal, Binary64.isNaN, Binary64.isZero, Binary64.zero]
  obtain ⟨hiff, hfacing⟩ := equal_coerce_iff_of_equal hequal
  refine ⟨hequal, hiff.mpr fun d e h => .inr ?_⟩
  obtain ⟨-, -, -, -, -, -, -, hsame⟩ := hfacing d e h
  simp only [a, b, priced, facing_mapping_iff, facing_sequence_iff, facing_decimal_iff,
    List.zip_cons_cons, List.zip_nil_right, List.mem_cons, List.not_mem_nil, or_false,
    exists_eq_or_imp, exists_eq_left] at h
  obtain ⟨rfl, rfl⟩ | ⟨⟨⟩⟩ | ⟨⟨⟩⟩ := h
  exact hsame (.inr (by decide))

/-- The digits `322` with one place. -/
def onePlace : Decimal := ⟨322, 1, by decide, by decide⟩

/-- The same number with thirteen more zeros. -/
def fourteenPlaces : Decimal := ⟨3220000000000000, 14, by decide, by decide⟩

/-- **Coercion tells equal decimals apart**: with sixteen digits the number is rounded more than
once. -/
theorem coerce_tells_scales_apart :
    (Host.decimal onePlace).equal (.decimal fourteenPlaces) = true ∧
      (Host.decimal onePlace).coerce.equal (Host.decimal fourteenPlaces).coerce = false := by
  constructor
  · rw [equal]
    decide +kernel
  · rw [coerce_decimal, coerce_decimal, Coerced.equal, Value.equal]
    decide +kernel

end Host
end Aggregation
