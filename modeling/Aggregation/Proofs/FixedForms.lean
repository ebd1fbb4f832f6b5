import Aggregation.Proofs.DigitTexts
import Aggregation.Proofs.Normalization

/-!
# The normal form of a normal form

A number that is written is not read as another number the next time: what stays a float is
no integer of 64 bits, and what digits spell is written without quotes. So the normal form
is its own normal form, and a second pass can only fail on a null that the first one wrote.
It writes one for digits that spell a number beyond all finite floats, and for nothing else.
-/

namespace Aggregation

namespace Number

/-- The number stays what it is when it is read back as a float. -/
def Settled (number : Number) : Prop :=
  ∀ x, number = .floating x → ofBinary64 x = .floating x

theorem settled_ofInt? {n : ℤ} {number : Number} (h : ofInt? n = some number) :
    number.Settled := by
  rintro x rfl
  unfold ofInt? at h
  split at h <;> simp at h

theorem settled_ofBinary64 (x : Binary64) : (ofBinary64 x).Settled := by
  by_cases h : ∃ n, x.IsInteger n ∧ Word.Holds n
  · obtain ⟨n, hx, hn⟩ := h
    intro y hy
    have hrender := render_ofBinary64_of_integer hx hn
    rw [hy, render] at hrender
    split at hrender <;> cases hrender
  · intro y hy
    have hfloat := ofBinary64_eq_floating h
    rw [hfloat] at hy
    cases hy
    exact hfloat

theorem settled_ofDigits (digits : List Char) : (ofDigits digits).Settled := by
  unfold ofDigits
  dsimp only
  cases hnumber : ofInt? (Digits.value digits) with
  | some number =>
    rw [Option.getD_some]
    exact settled_ofInt? hnumber
  | none =>
    rw [Option.getD_none]
    exact settled_ofBinary64 _

end Number

namespace Json

/-- A string of digits stands somewhere in the value that spells a number beyond all finite
floats. -/
def Overflows (j : Json) : Prop :=
  j.Contains fun part => ∃ s n, part = .string s ∧ Spells s n ∧ overflow ≤ n

theorem overflows_array_iff {items : List Json} :
    Overflows (.array items) ↔ ∃ item ∈ items, item.Overflows := by
  rw [Overflows, contains_array_iff, or_iff_right (by simp)]
  rfl

theorem overflows_object_iff {entries : Entries Json} :
    Overflows (.object entries) ↔ ∃ entry ∈ entries, entry.2.Overflows := by
  rw [Overflows, contains_object_iff, or_iff_right (by simp)]
  rfl

/-- Of the leaves only a string can overflow. -/
theorem overflows_leaf_iff {j : Json} (harray : ∀ items, j ≠ .array items)
    (hobject : ∀ entries, j ≠ .object entries) :
    j.Overflows ↔ ∃ s n, j = .string s ∧ Spells s n ∧ overflow ≤ n :=
  contains_leaf_iff harray hobject

/-! ## A written number is read as itself -/

theorem normalize_render {number : Number} (h : number.Settled) :
    normalize number.render = number.render := by
  cases number with
  | integral n => rw [Number.render, normalize]
  | unsigned n => rw [Number.render, normalize]
  | floating x =>
    rw [Number.render]
    split
    · rename_i hfinite
      rw [normalize, h x rfl, Number.render, if_pos hfinite]
    · rw [normalize]

theorem normalizeEntries_normalizeEntries {entries : Entries Json}
    (h : ∀ entry ∈ entries, entry.2.normalize.normalize = entry.2.normalize) :
    normalizeEntries (normalizeEntries entries) = normalizeEntries entries := by
  rw [normalizeEntries_eq_map, normalizeEntries_eq_map, List.map_map]
  refine List.map_congr_left fun entry hmem => ?_
  rw [Function.comp_apply, h entry hmem]

/-- **The normal form is its own normal form.** -/
@[simp] theorem normalize_normalize (j : Json) : j.normalize.normalize = j.normalize := by
  induction j with
  | null | bool b | integer n => simp only [normalize]
  | float x =>
    rw [normalize]
    exact normalize_render (Number.settled_ofBinary64 x)
  | string s =>
    rw [normalize]
    split
    · exact normalize_render (Number.settled_ofDigits s.toList)
    · rename_i htext
      rw [normalize, if_neg htext]
  | array items ih =>
    rw [normalize, normalize, normalizeItems_eq_map, normalizeItems_eq_map, List.map_map]
    congr 1
    exact List.map_congr_left ih
  | object entries ih =>
    rw [normalize, normalize, normalizeEntries_normalizeEntries ih]

/-! ## A written value is well-formed -/

theorem wellFormed_normalize_float {x : Binary64} (h : x.isFinite = true) :
    (normalize (.float x)).WellFormed := by
  have hnormal := normal_float x h
  generalize normalize (.float x) = written at hnormal
  cases hnormal with
  | integralFloat _ hn => exact .integer hn
  | float _ => exact .float h

theorem wellFormed_normalize_string (s : String) : (normalize (.string s)).WellFormed := by
  have hnormal := normal_string s
  generalize normalize (.string s) = written at hnormal
  cases hnormal with
  | numeral _ hn => exact .integer ⟨by omega, by exact_mod_cast hn⟩
  | longNumeral _ _ _ hx => exact .float hx.finite
  | overflowing => exact .null
  | text => exact .string s

theorem wellFormed_normalize {j : Json} (h : j.WellFormed) : j.normalize.WellFormed := by
  induction h with
  | null =>
    rw [normalize]
    exact .null
  | bool b =>
    rw [normalize]
    exact .bool b
  | integer hn =>
    rw [normalize]
    exact .integer hn
  | float hx => exact wellFormed_normalize_float hx
  | string s => exact wellFormed_normalize_string s
  | array _ ih =>
    rw [normalize, normalizeItems_eq_map]
    exact .array (List.forall_mem_map.mpr ih)
  | object hnames _ ih =>
    rw [normalize]
    refine .object (by rwa [names_normalizeEntries]) ?_
    rw [normalizeEntries_eq_map]
    exact List.forall_mem_map.mpr ih

/-! ## The nulls of a written value -/

/-- Digits that overflow spell more than 64 bits. -/
theorem two_pow_64_le_overflow : 2 ^ 64 ≤ overflow := by
  have hpow : ∀ {k l : ℕ}, k ≤ l → 2 ^ k ≤ 2 ^ l := Nat.pow_le_pow_right Nat.two_pos
  have hdouble : ∀ k, 2 ^ k + 2 ^ k = 2 ^ (k + 1) := fun k => by rw [pow_succ, mul_two]
  have hword : 2 ^ 64 ≤ 2 ^ 970 := hpow (by decide)
  exact hword.trans (Nat.le_sub_of_add_le ((hdouble 970).trans_le (hpow (by decide))))

/-- A string overflows with the number that it spells. -/
theorem overflows_string_iff {s : String} {n : ℕ} (h : Spells s n) :
    (Json.string s).Overflows ↔ overflow ≤ n := by
  rw [overflows_leaf_iff (by simp) (by simp)]
  constructor
  · rintro ⟨_, m, ⟨⟩, hm, hlarge⟩
    exact h.2 ▸ hm.2 ▸ hlarge
  · exact fun hn => ⟨s, n, rfl, h, hn⟩

theorem not_overflows_text {s : String} (h : ∀ n, ¬ Spells s n) :
    ¬ (Json.string s).Overflows := by
  rw [overflows_leaf_iff (by simp) (by simp)]
  rintro ⟨_, n, ⟨⟩, hn, -⟩
  exact h n hn

theorem hasNull_normalize_string_iff (s : String) :
    (normalize (.string s)).HasNull ↔ (Json.string s).Overflows := by
  have hnormal := normal_string s
  generalize normalize (.string s) = written at hnormal
  cases hnormal with
  | numeral hs hn =>
    rw [hasNull_leaf_iff (by simp) (by simp), overflows_string_iff hs]
    have hbound := two_pow_64_le_overflow
    exact iff_of_false (by simp) (by omega)
  | longNumeral hs _ hn =>
    rw [hasNull_leaf_iff (by simp) (by simp), overflows_string_iff hs]
    exact iff_of_false (by simp) (by omega)
  | overflowing hs hn => exact iff_of_true hasNull_null ((overflows_string_iff hs).mpr hn)
  | text hs =>
    rw [hasNull_leaf_iff (by simp) (by simp)]
    exact iff_of_false (by simp) (not_overflows_text hs)

/-- **A null is written where there was one, and for a number beyond all finite floats.** -/
theorem hasNull_normalize_iff {j : Json} (h : j.WellFormed) :
    j.normalize.HasNull ↔ j.HasNull ∨ j.Overflows := by
  induction h with
  | null => simp [normalize]
  | bool b =>
    rw [normalize]
    simp [hasNull_leaf_iff, overflows_leaf_iff]
  | integer hn =>
    rw [normalize]
    simp [hasNull_leaf_iff, overflows_leaf_iff]
  | float hx =>
    rename_i x
    have hnormal := normal_float x hx
    generalize normalize (.float x) = written at hnormal
    cases hnormal <;> simp [hasNull_leaf_iff, overflows_leaf_iff]
  | string s =>
    rw [hasNull_normalize_string_iff, or_iff_right]
    simp [hasNull_leaf_iff]
  | array _ ih =>
    rw [normalize, normalizeItems_eq_map, hasNull_array_iff, hasNull_array_iff,
      overflows_array_iff, ← exists_or]
    simp only [List.mem_map, exists_exists_and_eq_and]
    refine exists_congr fun item => ?_
    rw [← and_or_left]
    exact and_congr_right (ih item)
  | object _ _ ih =>
    rw [normalize, normalizeEntries_eq_map, hasNull_object_iff, hasNull_object_iff,
      overflows_object_iff, ← exists_or]
    simp only [List.mem_map, exists_exists_and_eq_and]
    refine exists_congr fun entry => ?_
    rw [← and_or_left]
    exact and_congr_right (ih entry)

end Json

/-! ## A number that overflows -/

namespace Json

/-- A one with zeros behind it. -/
def powerOfTen (k : ℕ) : String := String.ofList ('1' :: List.replicate k '0')

theorem spells_powerOfTen (k : ℕ) : Spells (powerOfTen k) (10 ^ k) := by
  rw [Spells, powerOfTen, String.toList_ofList]
  constructor
  · have hzeros : (List.replicate k '0').all Char.isDigit = true := by simp
    rw [Digits.isNumeral, List.all_cons, hzeros]
    rfl
  · have hone : Digits.value ['1'] = 1 := by decide
    rw [← List.singleton_append, Digits.value_append_zeros, hone, one_mul]

theorem overflow_le_ten_pow : overflow ≤ 10 ^ 309 := by
  have hstep : 2 ^ 93 ≤ 10 ^ 28 := by norm_num
  calc overflow ≤ 2 ^ 1024 := Nat.sub_le _ _
    _ = (2 ^ 93) ^ 11 * 2 := by rw [← pow_mul, ← pow_succ]
    _ ≤ (10 ^ 28) ^ 11 * 10 := Nat.mul_le_mul (Nat.pow_le_pow_left hstep 11) (by decide)
    _ = 10 ^ 309 := by rw [← pow_mul, ← pow_succ]

/-- Digits that overflow are written as null. -/
theorem normalize_overflowing {s : String} {n : ℕ} (hs : Spells s n) (hn : overflow ≤ n) :
    normalize (.string s) = .null := by
  obtain ⟨hdigits, rfl⟩ := hs
  rw [normalize_string_of_spells ⟨hdigits, rfl⟩,
    render_ofDigits_of_ge (two_pow_64_le_overflow.trans hn), if_neg (not_lt.mpr hn)]

end Json
end Aggregation
