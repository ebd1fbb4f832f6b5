import Aggregation.Json.Printer
import Aggregation.Proofs.ReadValues

/-!
# Layouts of a text

The compact and the pretty text of a value differ in blanks only: those in front of the items
and entries of a level and those after a colon. Both are the text of the value in a layout that
says what these blanks are.

## Main definitions

* `Json.Layout`, `Json.layOut` - the text of a value with given blanks between its parts.
* `Json.depth` - how deep the arrays and objects of a value nest.
* `Json.HasFloat` - a float stands somewhere in the value.

## Main results

* `Json.compactText_eq_layOut`, `Json.prettyText_eq_layOut` - both texts are laid out.
-/

namespace Aggregation.Json

/-! ## Depth -/

mutual

/-- How many arrays and objects stand inside each other. -/
def depth : Json → ℕ
  | .array items => depthItems items + 1
  | .object entries => depthEntries entries + 1
  | _ => 0

/-- The depth of the deepest item. -/
def depthItems : List Json → ℕ
  | [] => 0
  | item :: items => max item.depth (depthItems items)

/-- The depth of the deepest value of an entry. -/
def depthEntries : List (String × Json) → ℕ
  | [] => 0
  | (_, value) :: entries => max value.depth (depthEntries entries)

end

theorem depth_le_of_mem_items {items : List Json} {item : Json} (h : item ∈ items) :
    item.depth ≤ depthItems items := by
  induction items with
  | nil => contradiction
  | cons first items ih =>
    rw [depthItems]
    rcases List.mem_cons.mp h with rfl | h
    · exact le_max_left _ _
    · exact (ih h).trans (le_max_right _ _)

theorem depth_le_of_mem_entries {entries : Entries Json} {entry : String × Json}
    (h : entry ∈ entries) : entry.2.depth ≤ depthEntries entries := by
  induction entries with
  | nil => contradiction
  | cons first entries ih =>
    rw [depthEntries]
    rcases List.mem_cons.mp h with rfl | h
    · exact le_max_left _ _
    · exact (ih h).trans (le_max_right _ _)

/-- A float stands somewhere in the value. -/
def HasFloat (j : Json) : Prop := j.Contains fun part => ∃ x, part = .float x

theorem hasFloat_array_iff {items : List Json} :
    HasFloat (.array items) ↔ ∃ item ∈ items, item.HasFloat := by
  rw [HasFloat, contains_array_iff, or_iff_right (by simp)]
  rfl

theorem hasFloat_object_iff {entries : Entries Json} :
    HasFloat (.object entries) ↔ ∃ entry ∈ entries, entry.2.HasFloat := by
  rw [HasFloat, contains_object_iff, or_iff_right (by simp)]
  rfl

theorem ne_float_of_not_hasFloat {j : Json} (h : ¬ j.HasFloat) (x : Binary64) : j ≠ .float x :=
  fun heq => h (.here ⟨x, heq⟩)

/-! ## Layouts -/

/-- The blanks that set the parts of a text apart. -/
structure Layout where
  /-- What stands in front of the items and entries of a level. -/
  gap : ℕ → List Char
  /-- What stands after a colon. -/
  space : List Char
  gap_blank : ∀ level, ∀ c ∈ gap level, isBlank c = true
  space_blank : ∀ c ∈ space, isBlank c = true

/-- No blanks at all. -/
def Layout.compact : Layout where
  gap _ := []
  space := []
  gap_blank _ _ h := absurd h List.not_mem_nil
  space_blank _ h := absurd h List.not_mem_nil

theorem isBlank_of_mem_newline {level : ℕ} {c : Char} (h : c ∈ newline level) :
    isBlank c = true := by
  rcases List.mem_cons.mp h with rfl | h
  · rfl
  · obtain ⟨-, rfl⟩ := List.mem_replicate.mp h
    rfl

/-- A line for every item and entry. -/
def Layout.pretty : Layout where
  gap := newline
  space := [' ']
  gap_blank _ _ h := isBlank_of_mem_newline h
  space_blank _ h := by
    obtain rfl := List.mem_singleton.mp h
    rfl

mutual

/-- The text of a value that stands at a level. -/
def layOut (layout : Layout) (level : ℕ) : Json → List Char
  | .null => ['n', 'u', 'l', 'l']
  | .bool true => ['t', 'r', 'u', 'e']
  | .bool false => ['f', 'a', 'l', 's', 'e']
  | .integer n => integerText n
  | .float x => floatText x
  | .string s => quote s
  | .array [] => ['[', ']']
  | .array (item :: items) =>
    '[' :: (layout.gap (level + 1) ++
      (layOut layout (level + 1) item ++ layOutItems layout level items))
  | .object [] => ['{', '}']
  | .object ((key, value) :: entries) =>
    '{' :: (layout.gap (level + 1) ++ (quote key ++ ':' :: (layout.space ++
      (layOut layout (level + 1) value ++ layOutEntries layout level entries))))

/-- The items after the first, and the closing bracket. -/
def layOutItems (layout : Layout) (level : ℕ) : List Json → List Char
  | [] => layout.gap level ++ [']']
  | item :: items =>
    ',' :: (layout.gap (level + 1) ++
      (layOut layout (level + 1) item ++ layOutItems layout level items))

/-- The entries after the first, and the closing brace. -/
def layOutEntries (layout : Layout) (level : ℕ) : List (String × Json) → List Char
  | [] => layout.gap level ++ ['}']
  | (key, value) :: entries =>
    ',' :: (layout.gap (level + 1) ++ (quote key ++ ':' :: (layout.space ++
      (layOut layout (level + 1) value ++ layOutEntries layout level entries))))

end

theorem compactItems_eq_layOutItems {items : List Json} (level : ℕ)
    (h : ∀ item ∈ items, ∀ level, item.compactText = layOut .compact level item) :
    compactItems items = layOutItems .compact level items := by
  induction items with
  | nil => rfl
  | cons item items ih =>
    obtain ⟨hitem, hitems⟩ := List.forall_mem_cons.mp h
    rw [compactItems, layOutItems, ih hitems, hitem (level + 1)]
    rfl

theorem compactEntries_eq_layOutEntries {entries : Entries Json} (level : ℕ)
    (h : ∀ entry ∈ entries, ∀ level, entry.2.compactText = layOut .compact level entry.2) :
    compactEntries entries = layOutEntries .compact level entries := by
  induction entries with
  | nil => rfl
  | cons entry entries ih =>
    obtain ⟨hentry, hentries⟩ := List.forall_mem_cons.mp h
    rw [compactEntries, layOutEntries, ih hentries, hentry (level + 1)]
    rfl

/-- **The compact text is laid out without blanks.** -/
theorem compactText_eq_layOut (j : Json) (level : ℕ) :
    j.compactText = layOut .compact level j := by
  induction j generalizing level with
  | null => rw [compactText, layOut]
  | bool b => cases b <;> rw [compactText, layOut]
  | integer n => rw [compactText, layOut]
  | float x => rw [compactText, layOut]
  | string s => rw [compactText, layOut]
  | array items ih =>
    cases items with
    | nil => rw [compactText, layOut]
    | cons item items =>
      obtain ⟨hitem, hitems⟩ := List.forall_mem_cons.mp ih
      rw [compactText, layOut, hitem (level + 1), compactItems_eq_layOutItems level hitems]
      rfl
  | object entries ih =>
    cases entries with
    | nil => rw [compactText, layOut]
    | cons entry entries =>
      obtain ⟨hentry, hentries⟩ := List.forall_mem_cons.mp ih
      rw [compactText, layOut, hentry (level + 1), compactEntries_eq_layOutEntries level hentries]
      rfl

theorem prettyItems_eq_layOutItems {items : List Json} {level : ℕ}
    (h : ∀ item ∈ items, ∀ level, item.prettyText level = layOut .pretty level item) :
    prettyItems level items = layOutItems .pretty level items := by
  induction items with
  | nil => rw [prettyItems, layOutItems]; rfl
  | cons item items ih =>
    obtain ⟨hitem, hitems⟩ := List.forall_mem_cons.mp h
    rw [prettyItems, layOutItems, ih hitems, hitem (level + 1), List.append_assoc]
    rfl

theorem prettyEntries_eq_layOutEntries {entries : Entries Json} {level : ℕ}
    (h : ∀ entry ∈ entries, ∀ level, entry.2.prettyText level = layOut .pretty level entry.2) :
    prettyEntries level entries = layOutEntries .pretty level entries := by
  induction entries with
  | nil => rw [prettyEntries, layOutEntries]; rfl
  | cons entry entries ih =>
    obtain ⟨hentry, hentries⟩ := List.forall_mem_cons.mp h
    rw [prettyEntries, layOutEntries, ih hentries, hentry (level + 1), List.append_assoc]
    rfl

/-- **The pretty text is laid out by lines.** -/
theorem prettyText_eq_layOut (j : Json) (level : ℕ) :
    j.prettyText level = layOut .pretty level j := by
  induction j generalizing level with
  | null => rw [prettyText, layOut]
  | bool b => cases b <;> rw [prettyText, layOut]
  | integer n => rw [prettyText, layOut]
  | float x => rw [prettyText, layOut]
  | string s => rw [prettyText, layOut]
  | array items ih =>
    cases items with
    | nil => rw [prettyText, layOut]
    | cons item items =>
      obtain ⟨hitem, hitems⟩ := List.forall_mem_cons.mp ih
      rw [prettyText, layOut, hitem (level + 1), prettyItems_eq_layOutItems hitems,
        List.append_assoc]
      rfl
  | object entries ih =>
    cases entries with
    | nil => rw [prettyText, layOut]
    | cons entry entries =>
      obtain ⟨hentry, hentries⟩ := List.forall_mem_cons.mp ih
      rw [prettyText, layOut, hentry (level + 1), prettyEntries_eq_layOutEntries hentries,
        List.append_assoc]
      rfl

end Aggregation.Json
