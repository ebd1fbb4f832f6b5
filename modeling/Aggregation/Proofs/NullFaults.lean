import Aggregation.Fields
import Aggregation.Host
import Aggregation.Proofs.Faults
import Aggregation.Proofs.JsonTrees

/-!
# Faults on a null

Of all that JSON describes only a null has no wire form. So a rendering fails exactly when
there is a null among the parts it renders, and the fault is then always the same.
`NullFault result condition` says this of one rendering; it is carried through sequencing
and lists of parts to whole values.
-/

namespace Aggregation

universe u
variable {α β : Type u}

/-- The result is a fault exactly under the condition, and then that of a null. -/
structure NullFault (result : Except Error α) (condition : Prop) : Prop where
  fault : condition → result = .error (.unrenderable .null)
  success : ¬ condition → ∃ a, result = .ok a

namespace NullFault

variable {result : Except Error α} {condition condition' : Prop}

theorem of_ok (a : α) : NullFault (.ok a : Except Error α) False := ⟨False.elim, fun _ => ⟨a, rfl⟩⟩

theorem of_null : NullFault (.error (.unrenderable .null) : Except Error α) True :=
  ⟨fun _ => rfl, fun h => absurd trivial h⟩

theorem congr (h : NullFault result condition) (hiff : condition ↔ condition') :
    NullFault result condition' := propext hiff ▸ h

/-- The first of two parts that fails decides; both fail alike. -/
theorem bind {f : α → Except Error β} (h : NullFault result condition)
    (hf : ∀ a, NullFault (f a) condition') :
    NullFault (result >>= f) (condition ∨ condition') := by
  by_cases hc : condition
  · rw [h.fault hc]
    exact ⟨fun _ => rfl, fun hn => absurd (.inl hc) hn⟩
  · obtain ⟨a, rfl⟩ := h.success hc
    exact (hf a).congr ⟨.inr, fun hor => hor.resolve_left hc⟩

/-- What is done with a part that is rendered adds no fault. -/
theorem map (f : α → β) (h : NullFault result condition) :
    NullFault (result >>= fun a => .ok (f a)) condition :=
  (h.bind fun a => of_ok (f a)).congr (or_iff_left not_false)

/-- A list of parts fails when one of them does. The condition of a part is stated of what
the part comes from. -/
theorem mapM_forall₂ {γ : Type*} {f : α → Except Error β} {fails : γ → Prop} {sources : List γ}
    {parts : List α}
    (h : List.Forall₂ (fun source part => NullFault (f part) (fails source)) sources parts) :
    NullFault (parts.mapM f) (∃ source ∈ sources, fails source) := by
  induction h with
  | nil => exact (of_ok []).congr (by simp)
  | cons hhead _ ih =>
    rw [List.mapM_cons]
    exact (hhead.bind fun part => ih.map (part :: ·)).congr (by simp)

theorem mapM {f : α → Except Error β} {fails : α → Prop} {parts : List α}
    (h : ∀ part ∈ parts, NullFault (f part) (fails part)) :
    NullFault (parts.mapM f) (∃ part ∈ parts, fails part) :=
  mapM_forall₂ (List.forall₂_same.mpr h)

theorem eq_fault_iff (h : NullFault result condition) :
    result = .error (.unrenderable .null) ↔ condition := by
  refine ⟨fun hr => by_contra fun hc => ?_, h.fault⟩
  obtain ⟨a, ha⟩ := h.success hc
  rw [ha] at hr
  contradiction

theorem succeeds_iff (h : NullFault result condition) : (∃ a, result = .ok a) ↔ ¬ condition := by
  refine ⟨fun ⟨a, ha⟩ hc => ?_, h.success⟩
  rw [h.fault hc] at ha
  contradiction

end NullFault

/-! ## Leaves and lists of parts -/

@[simp] theorem Value.render_boolean (b : Bool) : (Value.boolean b).render = .ok (.bool b) := by
  rw [Value.render]

@[simp] theorem Value.render_number (n : Number) : (Value.number n).render = .ok n.render := by
  rw [Value.render]

@[simp] theorem Value.render_integer (n : Int64) :
    (Value.integer n).render = .ok (.integer n.toInt) := by
  rw [Value.render]

@[simp] theorem Value.render_string (s : String) : (Value.string s).render = .ok (.string s) := by
  rw [Value.render]

theorem Coerced.renderItems_eq_mapM (items : List Coerced) :
    Coerced.renderItems items = items.mapM Coerced.render := by
  induction items with
  | nil => rw [Coerced.renderItems]; rfl
  | cons item items ih => rw [Coerced.renderItems, List.mapM_cons, ih]

/-- Render the value of an entry, keeping the name. -/
def Coerced.renderEntry (entry : String × Coerced) : Except Error (String × Json) := do
  let value ← entry.2.render
  return (entry.1, value)

theorem Coerced.renderEntries_eq_mapM (entries : Entries Coerced) :
    Coerced.renderEntries entries = entries.mapM Coerced.renderEntry := by
  induction entries with
  | nil => rw [Coerced.renderEntries]; rfl
  | cons entry entries ih =>
    rw [Coerced.renderEntries, List.mapM_cons, ih, Coerced.renderEntry, bind_assoc]
    rfl

/-! ## JSON through coercion -/

theorem Host.ofInteger_of_signed {n : ℤ} {i : Int64} (h : Word.signed? n = some i) :
    Host.ofInteger n = .integer i := by
  rw [Host.ofInteger, h]

theorem Host.ofInteger_of_unsigned {n : ℤ} {u : UInt64} (hs : Word.signed? n = none)
    (hu : Word.unsigned? n = some u) : Host.ofInteger n = .unsigned u := by
  rw [Host.ofInteger, hs, hu]

theorem Host.ofInteger_of_none {n : ℤ} (hs : Word.signed? n = none)
    (hu : Word.unsigned? n = none) : Host.ofInteger n = .float (Binary64.ofInt n) := by
  rw [Host.ofInteger, hs, hu]

theorem Value.ofUInt64_of_some {u : UInt64} {i : Int64} (h : Word.signed? u.toNat = some i) :
    Value.ofUInt64 u = .integer i := by
  rw [Value.ofUInt64, h, Option.map_some, Option.getD_some]

theorem Value.ofUInt64_of_none {u : UInt64} (h : Word.signed? u.toNat = none) :
    Value.ofUInt64 u = .number (.unsigned u) := by
  rw [Value.ofUInt64, h, Option.map_none, Option.getD_none]

namespace Json

/-- The wire form of a JSON value that was coerced. -/
def recode (j : Json) : Except Error Json := (Host.ofJson j).coerce.render

/-- The wire form of an entry, the name kept. -/
def recodeEntry (entry : String × Json) : Except Error (String × Json) := do
  let value ← entry.2.recode
  return (entry.1, value)

@[simp] theorem recode_null : recode .null = .error (.unrenderable .null) := by
  simp [recode, Host.ofJson, Host.coerce, Coerced.render, Host.type]

@[simp] theorem recode_bool (b : Bool) : recode (.bool b) = .ok (.bool b) := by
  simp [recode, Host.ofJson, Host.coerce]

@[simp] theorem recode_float (x : Binary64) :
    recode (.float x) = .ok (Number.ofBinary64 x).render := by
  rw [recode, Host.ofJson, Host.coerce, Coerced.render_typed, Value.render_number]

theorem recode_string (s : String) : recode (.string s) = (Value.ofString s).render := by
  rw [recode, Host.ofJson, Host.coerce, Coerced.render_typed]

/-- An integer of the right size is written as itself. -/
theorem recode_integer_of_holds {n : ℤ} (h : Word.Holds n) :
    recode (.integer n) = .ok (.integer n) := by
  rw [recode, Host.ofJson]
  cases hs : Word.signed? n with
  | some i =>
    rw [Host.ofInteger_of_signed hs, Host.coerce, Coerced.render_typed, Value.render_integer,
      Word.toInt_of_signed? hs]
  | none =>
    cases hu : Word.unsigned? n with
    | some u =>
      have hn : (u.toNat : ℤ) = n := Word.toNat_of_unsigned? hu
      have hlarge : Word.signed? u.toNat = none := by rw [hn, hs]
      rw [Host.ofInteger_of_unsigned hs hu, Host.coerce, Coerced.render_typed,
        Value.ofUInt64_of_none hlarge, Value.render_number, Number.render, hn]
    | none =>
      have hsigned := Word.signed?_eq_none_iff.mp hs
      have hunsigned := Word.unsigned?_eq_none_iff.mp hu
      unfold Word.Holds at h
      omega

theorem recode_integer (n : ℤ) : ∃ r, recode (.integer n) = .ok r := by
  rw [recode, Host.ofJson]
  cases hs : Word.signed? n with
  | some i =>
    rw [Host.ofInteger_of_signed hs, Host.coerce, Coerced.render_typed]
    exact ⟨_, Value.render_integer i⟩
  | none =>
    cases hu : Word.unsigned? n with
    | some u =>
      rw [Host.ofInteger_of_unsigned hs hu, Host.coerce, Coerced.render_typed]
      cases hword : Word.signed? u.toNat with
      | some i =>
        rw [Value.ofUInt64_of_some hword]
        exact ⟨_, Value.render_integer i⟩
      | none =>
        rw [Value.ofUInt64_of_none hword]
        exact ⟨_, Value.render_number _⟩
    | none =>
      rw [Host.ofInteger_of_none hs hu, Host.coerce, Coerced.render_typed]
      exact ⟨_, Value.render_number _⟩

theorem recode_array (items : List Json) :
    recode (.array items) = (items.mapM recode >>= fun items => .ok (.array items)) := by
  rw [recode, Host.ofJson, Host.coerce, Coerced.render_typed, Value.render,
    Coerced.renderItems_eq_mapM, Host.coerceItems_eq_map, Host.ofItems_eq_map, List.map_map,
    List.mapM_map]
  rfl

theorem recode_object (entries : Entries Json) :
    recode (.object entries) =
      (entries.mapM recodeEntry >>= fun entries => .ok (.object (Entries.collapse entries))) := by
  rw [recode, Host.ofJson, Host.coerce, Coerced.render_typed, Value.render,
    Coerced.renderEntries_eq_mapM, Host.coerceEntries_eq_map, Host.ofEntries_eq_map, List.map_map,
    List.mapM_map]
  rfl

theorem recode_string_ok (s : String) : ∃ r, recode (.string s) = .ok r := by
  rw [recode_string, Value.ofString]
  split
  · exact ⟨_, Value.render_number _⟩
  · exact ⟨_, Value.render_string s⟩

@[simp] theorem hasNull_null : HasNull .null := .here rfl

theorem hasNull_array_iff {items : List Json} :
    HasNull (.array items) ↔ ∃ item ∈ items, item.HasNull := by
  rw [HasNull, contains_array_iff, or_iff_right (by simp)]
  rfl

theorem hasNull_object_iff {entries : Entries Json} :
    HasNull (.object entries) ↔ ∃ entry ∈ entries, entry.2.HasNull := by
  rw [HasNull, contains_object_iff, or_iff_right (by simp)]
  rfl

/-- The only leaf that contains a null is null. -/
theorem hasNull_leaf_iff {j : Json} (harray : ∀ items, j ≠ .array items)
    (hobject : ∀ entries, j ≠ .object entries) : j.HasNull ↔ j = .null :=
  contains_leaf_iff harray hobject

/-- A leaf other than null is rendered. -/
theorem nullFault_of_leaf {j r : Json} (hr : j.recode = .ok r) (hnull : j ≠ .null)
    (harray : ∀ items, j ≠ .array items) (hobject : ∀ entries, j ≠ .object entries) :
    NullFault j.recode j.HasNull := by
  rw [hr]
  refine (NullFault.of_ok r).congr (iff_of_false not_false ?_)
  rwa [hasNull_leaf_iff harray hobject]

/-- **Coercion and rendering of a JSON value fail exactly on a null**, at whatever depth. -/
theorem recode_nullFault (j : Json) : NullFault j.recode j.HasNull := by
  induction j with
  | null => exact recode_null ▸ NullFault.of_null.congr (by simp)
  | bool b => exact nullFault_of_leaf (recode_bool b) (by simp) (by simp) (by simp)
  | integer n =>
    obtain ⟨r, hr⟩ := recode_integer n
    exact nullFault_of_leaf hr (by simp) (by simp) (by simp)
  | float x => exact nullFault_of_leaf (recode_float x) (by simp) (by simp) (by simp)
  | string s =>
    obtain ⟨r, hr⟩ := recode_string_ok s
    exact nullFault_of_leaf hr (by simp) (by simp) (by simp)
  | array items ih =>
    rw [recode_array]
    exact ((NullFault.mapM ih).map Json.array).congr hasNull_array_iff.symm
  | object entries ih =>
    rw [recode_object]
    have hentries : NullFault (entries.mapM recodeEntry) (∃ entry ∈ entries, entry.2.HasNull) :=
      NullFault.mapM fun entry hmem => (ih entry hmem).map (entry.1, ·)
    exact (hentries.map fun written => Json.object (Entries.collapse written)).congr
      hasNull_object_iff.symm

/-- Entries fail when the value of one does. -/
theorem recodeEntries_nullFault (entries : Entries Json) :
    NullFault (entries.mapM recodeEntry) (∃ entry ∈ entries, entry.2.HasNull) :=
  NullFault.mapM fun entry _ => entry.2.recode_nullFault.map (entry.1, ·)

end Json
end Aggregation
