import Aggregation.Proofs.Numbers
import Aggregation.Proofs.OrderedEntries

/-!
# JSON values as trees

An induction principle with the parts of arrays and objects as hypotheses, the parts that a
value contains at any depth, and the bounds that tell a JSON value from an arbitrary tree:
integers that 64 bits hold, finite floats, and objects with distinct keys.
-/

namespace Aggregation.Json

/-- Induction over JSON values: what holds of all leaves, and of arrays and objects when it
holds of their parts, holds of every value. -/
@[elab_as_elim, induction_eliminator]
theorem induct {motive : Json → Prop} (null : motive .null) (bool : ∀ b, motive (.bool b))
    (integer : ∀ n, motive (.integer n)) (float : ∀ x, motive (.float x))
    (string : ∀ s, motive (.string s))
    (array : ∀ items, (∀ item ∈ items, motive item) → motive (.array items))
    (object : ∀ entries : Entries Json, (∀ entry ∈ entries, motive entry.2) →
      motive (.object entries)) (j : Json) : motive j :=
  @Json.rec motive (fun items => ∀ item ∈ items, motive item)
    (fun entries => ∀ entry ∈ entries, motive entry.2) (fun entry => motive entry.2)
    null bool integer float string array object
    (fun _ hmem => absurd hmem List.not_mem_nil)
    (fun _ _ hitem hitems => List.forall_mem_cons.mpr ⟨hitem, hitems⟩)
    (fun _ hmem => absurd hmem List.not_mem_nil)
    (fun _ _ hentry hentries => List.forall_mem_cons.mpr ⟨hentry, hentries⟩)
    (fun _ _ hvalue => hvalue) j

/-- Some part of the value, at any depth, satisfies a predicate. -/
inductive Contains (p : Json → Prop) : Json → Prop
  | here {j : Json} : p j → Contains p j
  | item {items : List Json} {item : Json} : item ∈ items → Contains p item →
    Contains p (.array items)
  | entry {entries : Entries Json} {entry : String × Json} : entry ∈ entries →
    Contains p entry.2 → Contains p (.object entries)

/-- A null stands somewhere in the value. -/
def HasNull (j : Json) : Prop := j.Contains (· = .null)

/-- What every JSON value satisfies: its integers have 64 bits, its floats are finite, and
the keys of an object are distinct. The reader gives no other value (`wellFormed_of_read`). -/
inductive WellFormed : Json → Prop
  | null : WellFormed .null
  | bool (b : Bool) : WellFormed (.bool b)
  | integer {n : ℤ} : Word.Holds n → WellFormed (.integer n)
  | float {x : Binary64} : x.isFinite = true → WellFormed (.float x)
  | string (s : String) : WellFormed (.string s)
  | array {items : List Json} : (∀ item ∈ items, WellFormed item) → WellFormed (.array items)
  | object {entries : Entries Json} : (Entries.names entries).Nodup →
    (∀ entry ∈ entries, WellFormed entry.2) → WellFormed (.object entries)

namespace WellFormed
variable {document entries : Entries Json}

theorem empty : WellFormed (.object []) :=
  .object List.nodup_nil fun _ hmem => absurd hmem List.not_mem_nil

theorem singleton (name : String) {value : Json} (h : value.WellFormed) :
    WellFormed (.object [(name, value)]) :=
  .object (by simp) (by simpa using h)

theorem tail {entry : String × Json} (h : WellFormed (.object (entry :: entries))) :
    WellFormed (.object entries) := by
  cases h with
  | object hnames hentries =>
    exact .object (List.nodup_cons.mp hnames).2 (List.forall_mem_cons.mp hentries).2

/-- Writing entries into a document gives a document. -/
theorem insertAll (h : WellFormed (.object document))
    (hentries : ∀ entry ∈ entries, entry.2.WellFormed) :
    WellFormed (.object (Entries.insertAll document entries)) := by
  cases h with
  | object hnames hdocument =>
    refine .object (Entries.names_insertAll_nodup entries hnames) fun entry hmem => ?_
    exact (Entries.mem_of_mem_insertAll hmem).elim (hdocument entry) (hentries entry)

end WellFormed

section Contains
variable {p : Json → Prop}

theorem contains_array_iff {items : List Json} :
    (Json.array items).Contains p ↔
      p (.array items) ∨ ∃ item ∈ items, item.Contains p := by
  constructor
  · rintro (h | ⟨hmem, h⟩)
    · exact .inl h
    · exact .inr ⟨_, hmem, h⟩
  · rintro (h | ⟨item, hmem, h⟩)
    · exact .here h
    · exact .item hmem h

theorem contains_object_iff {entries : Entries Json} :
    (Json.object entries).Contains p ↔
      p (.object entries) ∨ ∃ entry ∈ entries, entry.2.Contains p := by
  constructor
  · rintro (h | _ | ⟨hmem, h⟩)
    · exact .inl h
    · exact .inr ⟨_, hmem, h⟩
  · rintro (h | ⟨entry, hmem, h⟩)
    · exact .here h
    · exact .entry hmem h

/-- A value that is neither an array nor an object contains only itself. -/
theorem contains_leaf_iff {j : Json} (harray : ∀ items, j ≠ .array items)
    (hobject : ∀ entries, j ≠ .object entries) : j.Contains p ↔ p j := by
  constructor
  · rintro (h | _ | _)
    · exact h
    · exact absurd rfl (harray _)
    · exact absurd rfl (hobject _)
  · exact .here

end Contains

end Aggregation.Json
