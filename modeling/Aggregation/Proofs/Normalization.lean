import Aggregation.Proofs.NullFaults

/-!
# The normal form of a JSON value

Coercion and rendering keep the tree of a JSON value and change numbers only. A float that
is an integer of 64 bits is written as that integer. A string of digits is written as the
number it spells: an integer of 64 bits, else the nearest float, else null.

## Main results

* `Json.Normal` - what the wire form of a JSON value is, part by part.
* `Json.recode_eq_normalize` - `Json.normalize` computes it.
* `Json.normal_normalize` - the normal form computed is the one described.
-/

namespace Aggregation.Json

/-- The text is a nonempty string of ASCII digits, and they spell the number. -/
def Spells (s : String) (n : ℕ) : Prop :=
  Digits.isNumeral s.toList = true ∧ Digits.value s.toList = n

/-- The least number that no finite float is nearest to: halfway between the largest one and
the power of two above it. -/
def overflow : ℕ := 2 ^ 1024 - 2 ^ 970

/-- The second value is the wire form of the first: the same tree, with its numbers as they
are written. -/
inductive Normal : Json → Json → Prop
  | bool (b : Bool) : Normal (.bool b) (.bool b)
  | integer (n : ℤ) : Normal (.integer n) (.integer n)
  | integralFloat {x : Binary64} {n : ℤ} : x.IsInteger n → Word.Holds n →
    Normal (.float x) (.integer n)
  | float {x : Binary64} : (∀ n, x.IsInteger n → ¬ Word.Holds n) → Normal (.float x) (.float x)
  | numeral {s : String} {n : ℕ} : Spells s n → n < 2 ^ 64 → Normal (.string s) (.integer n)
  | longNumeral {s : String} {n : ℕ} {x : Binary64} : Spells s n → 2 ^ 64 ≤ n →
    n < overflow → x.IsNearest n 1 → Normal (.string s) (.float x)
  | overflowing {s : String} {n : ℕ} : Spells s n → overflow ≤ n → Normal (.string s) .null
  | text {s : String} : (∀ n, ¬ Spells s n) → Normal (.string s) (.string s)
  | array {items written : List Json} (hlength : written.length = items.length) :
    (∀ (i : ℕ) (h : i < items.length), Normal items[i] written[i]) →
      Normal (.array items) (.array written)
  | object {entries written : Entries Json}
    (hnames : Entries.names written = Entries.names entries)
    (hlength : written.length = entries.length) :
    (∀ (i : ℕ) (h : i < entries.length), Normal entries[i].2 written[i].2) →
      Normal (.object entries) (.object written)

mutual

/-- The normal form of a JSON value. -/
def normalize : Json → Json
  | .null => .null
  | .bool b => .bool b
  | .integer n => .integer n
  | .float x => (Number.ofBinary64 x).render
  | .string s => if Digits.isNumeral s.toList then (Number.ofDigits s.toList).render else .string s
  | .array items => .array (normalizeItems items)
  | .object entries => .object (normalizeEntries entries)

/-- The normal form of every item. -/
def normalizeItems : List Json → List Json
  | [] => []
  | item :: items => normalize item :: normalizeItems items

/-- The normal form of every value, keeping the names. -/
def normalizeEntries : List (String × Json) → List (String × Json)
  | [] => []
  | (name, value) :: entries => (name, normalize value) :: normalizeEntries entries

end

@[simp] theorem normalizeItems_eq_map (items : List Json) :
    normalizeItems items = items.map normalize := by
  induction items <;> simp_all [normalizeItems]

@[simp] theorem normalizeEntries_eq_map (entries : Entries Json) :
    normalizeEntries entries = entries.map fun entry => (entry.1, entry.2.normalize) := by
  induction entries <;> simp_all [normalizeEntries]

/-- The normal form keeps the names of a document and their order. -/
@[simp] theorem names_normalizeEntries (entries : Entries Json) :
    Entries.names (normalizeEntries entries) = Entries.names entries := by
  rw [normalizeEntries_eq_map, Entries.names, List.map_map]
  rfl

@[simp] theorem length_normalizeEntries (entries : Entries Json) :
    (normalizeEntries entries).length = entries.length := by
  rw [normalizeEntries_eq_map, List.length_map]

theorem normalize_string_of_spells {s : String} {n : ℕ} (h : Spells s n) :
    normalize (.string s) = (Number.ofDigits s.toList).render := by
  rw [normalize, if_pos h.1]

theorem normalize_text {s : String} (h : ∀ n, ¬ Spells s n) :
    normalize (.string s) = .string s := by
  rw [normalize, if_neg fun hdigits => h _ ⟨hdigits, rfl⟩]

/-! ## Coercion and rendering compute it -/

theorem recode_string_eq (s : String) : recode (.string s) = .ok (normalize (.string s)) := by
  rw [recode_string, Value.ofString, normalize]
  split
  · exact Value.render_number _
  · exact Value.render_string s

/-- Entries are written as their normal form when their values are. -/
theorem recodeEntries_eq {entries : Entries Json}
    (h : ∀ entry ∈ entries, entry.2.recode = .ok entry.2.normalize) :
    entries.mapM recodeEntry = .ok (normalizeEntries entries) := by
  rw [normalizeEntries_eq_map]
  refine Fault.mapM_of_forall_ok fun entry hmem => ?_
  rw [recodeEntry, h entry hmem]
  rfl

/-- **A well-formed value without null is rendered to its normal form.** -/
theorem recode_eq_normalize {j : Json} (h : j.WellFormed) (hnull : ¬ j.HasNull) :
    j.recode = .ok j.normalize := by
  induction j with
  | null => exact absurd hasNull_null hnull
  | bool b => rw [recode_bool, normalize]
  | integer n =>
    cases h with
    | integer hn => rw [recode_integer_of_holds hn, normalize]
  | float x => rw [recode_float, normalize]
  | string s => exact recode_string_eq s
  | array items ih =>
    cases h with
    | array hitems =>
      rw [hasNull_array_iff] at hnull
      push Not at hnull
      rw [recode_array, Fault.mapM_of_forall_ok fun item hmem =>
        ih item hmem (hitems item hmem) (hnull item hmem), Fault.ok_bind, normalize,
        normalizeItems_eq_map]
  | object entries ih =>
    cases h with
    | object hnames hentries =>
      rw [hasNull_object_iff] at hnull
      push Not at hnull
      have hparts := recodeEntries_eq fun entry hmem =>
        ih entry hmem (hentries entry hmem) (hnull entry hmem)
      have hdistinct : (Entries.names (normalizeEntries entries)).Nodup := by
        rwa [names_normalizeEntries]
      rw [recode_object, hparts, Fault.ok_bind, Entries.collapse_of_nodup hdistinct, normalize]

/-! ## The normal form is what it is said to be -/

theorem normal_float (x : Binary64) (hfinite : x.isFinite = true) :
    Normal (.float x) (normalize (.float x)) := by
  rw [normalize]
  by_cases h : ∃ n, x.IsInteger n ∧ Word.Holds n
  · obtain ⟨n, hx, hn⟩ := h
    rw [Number.render_ofBinary64_of_integer hx hn]
    exact .integralFloat hx hn
  · rw [Number.ofBinary64_eq_floating h, Number.render, if_pos hfinite]
    push Not at h
    exact .float h

/-- Digits beyond 64 bits are written as the nearest float, or as null if that is infinite. -/
theorem render_ofDigits_of_ge {digits : List Char} (h : 2 ^ 64 ≤ Digits.value digits) :
    (Number.ofDigits digits).render =
      if Digits.value digits < overflow then .float (Binary64.ofNat (Digits.value digits))
      else .null := by
  rw [Number.ofDigits_eq_floating h, Number.render]
  exact if_congr (Binary64.ofNat_isFinite_iff _) rfl rfl

theorem normal_string (s : String) : Normal (.string s) (normalize (.string s)) := by
  by_cases hspells : ∃ n, Spells s n
  · obtain ⟨n, hdigits, rfl⟩ := hspells
    rw [normalize_string_of_spells ⟨hdigits, rfl⟩]
    rcases Nat.lt_or_ge (Digits.value s.toList) (2 ^ 64) with hshort | hlong
    · rw [Number.render_ofDigits_of_lt hshort]
      exact .numeral ⟨hdigits, rfl⟩ hshort
    · rw [render_ofDigits_of_ge hlong]
      split
      · rename_i hlt
        have hfinite := (Binary64.ofNat_isFinite_iff _).mpr hlt
        exact .longNumeral ⟨hdigits, rfl⟩ hlong hlt
          (Binary64.nearest_isNearest Nat.one_pos hfinite)
      · rename_i hge
        exact .overflowing ⟨hdigits, rfl⟩ (not_lt.mp hge)
  · push Not at hspells
    rw [normalize_text hspells]
    exact .text hspells

/-- **The normal form of a well-formed value without null.** -/
theorem normal_normalize {j : Json} (h : j.WellFormed) (hnull : ¬ j.HasNull) :
    Normal j j.normalize := by
  induction j with
  | null => exact absurd hasNull_null hnull
  | bool b =>
    rw [normalize]
    exact .bool b
  | integer n =>
    rw [normalize]
    exact .integer n
  | float x =>
    cases h with
    | float hfinite => exact normal_float x hfinite
  | string s => exact normal_string s
  | array items ih =>
    cases h with
    | array hitems =>
      rw [hasNull_array_iff] at hnull
      push Not at hnull
      rw [normalize, normalizeItems_eq_map]
      refine .array (List.length_map _) fun i hi => ?_
      have hmem : items[i] ∈ items := List.getElem_mem hi
      simpa using ih _ hmem (hitems _ hmem) (hnull _ hmem)
  | object entries ih =>
    cases h with
    | object _ hentries =>
      rw [hasNull_object_iff] at hnull
      push Not at hnull
      rw [normalize]
      refine .object (names_normalizeEntries entries) (length_normalizeEntries entries)
        fun i hi => ?_
      have hmem : entries[i] ∈ entries := List.getElem_mem hi
      simpa using ih _ hmem (hentries _ hmem) (hnull _ hmem)

/-! ## The whole conversion -/

/-- Every JSON value but null has a typed form. -/
theorem exists_kind {j : Json} (h : j ≠ .null) :
    ∃ kind, (Host.ofJson j).coerce.kind? = some kind := by
  cases j with
  | null => contradiction
  | integer n =>
    rw [Host.ofJson, Host.ofInteger]
    split
    all_goals
      rw [Host.coerce]
      exact ⟨_, rfl⟩
  | bool b | float x | string s | array items | object entries =>
    rw [Host.ofJson, Host.coerce]
    exact ⟨_, rfl⟩

/-- **JSON through coercion and back.** A value with a null somewhere has no wire form, and
null is named as what has none. Any other value has a kind, and its wire form is its normal
form. -/
theorem coerce_render_outcome {j : Json} (h : j.WellFormed) :
    ((Host.ofJson j).coerce.render = .error (.unrenderable .null) ↔ j.HasNull) ∧
      (¬ j.HasNull → ∃ r kind, (Host.ofJson j).coerce.render = .ok r ∧
        (Host.ofJson j).coerce.kind? = some kind ∧ Normal j r) := by
  refine ⟨(recode_nullFault j).eq_fault_iff, fun hnull => ?_⟩
  obtain ⟨kind, hkind⟩ := exists_kind fun hj : j = .null => hnull (hj ▸ hasNull_null)
  exact ⟨j.normalize, kind, recode_eq_normalize h hnull, hkind, normal_normalize h hnull⟩

/-- A value with every sort of leaf but null. -/
def mixedLeaves : Json :=
  .object [("items", .array [.bool true, .integer (-5), .float (.zero true),
    .float (.atPlace false 1)]), ("texts", .array [.string "007", .string "-7", .string ""])]

theorem coerce_render_outcome_mixedLeaves :
    mixedLeaves.WellFormed ∧ ¬ mixedLeaves.HasNull ∧
      ∃ r kind, (Host.ofJson mixedLeaves).coerce.render = .ok r ∧
        (Host.ofJson mixedLeaves).coerce.kind? = some kind ∧ Normal mixedLeaves r := by
  have h : mixedLeaves.WellFormed := by
    refine .object (by decide) fun entry hmem => ?_
    simp only [List.mem_cons, List.not_mem_nil, or_false] at hmem
    rcases hmem with rfl | rfl
    · refine .array fun item hmem => ?_
      simp only [List.mem_cons, List.not_mem_nil, or_false] at hmem
      rcases hmem with rfl | rfl | rfl | rfl
      · exact .bool true
      · exact .integer (by decide)
      · exact .float (by decide)
      · exact .float (by decide)
    · refine .array fun item hmem => ?_
      simp only [List.mem_cons, List.not_mem_nil, or_false] at hmem
      rcases hmem with rfl | rfl | rfl <;> exact .string _
  have hnull : ¬ mixedLeaves.HasNull := by
    simp [mixedLeaves, hasNull_object_iff, hasNull_array_iff, hasNull_leaf_iff]
  exact ⟨h, hnull, (coerce_render_outcome h).2 hnull⟩

end Aggregation.Json
