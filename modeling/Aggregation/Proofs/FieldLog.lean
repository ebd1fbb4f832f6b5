import Aggregation.Proofs.RepeatedNames

/-!
# Fields as the log of a document

Fields keep every entry that was inserted, repeated names included, and write a document only when
they are rendered. A document that is changed at once keeps one value for each name. The two stay
together: after any changes the fields render to the document, and a removal finds an entry
exactly if the document has the name. What is removed takes all entries of its name with it, also
those that were overwritten, so a later insertion starts at the end in both.

## Main definitions

* `OrderedMap` - named values in order, each name once.
* `Edit`, `Edit.run` - an insertion or a removal, and a run of them.

## Main results

* `Entries.foldlM_writeEntry_erase` - removing a name before the entries are written is removing
  it after.
* `Edit.simulates` - one change keeps fields and document together.
* `Fields.run_refines` - so does every run of changes.
-/

namespace Aggregation

namespace Entries

variable {α β : Type} {name : String}

theorem erase_insert_self (value : α) (entries : Entries α) :
    erase name (insert name value entries) = erase name entries := by
  induction entries with
  | nil => simp [erase]
  | cons entry entries ih =>
    by_cases hname : entry.1 = name
    · simp [insert, erase, hname]
    · simp only [erase] at ih
      simp [insert, erase, hname, ih]

theorem erase_insert_of_ne {other : String} (hne : other ≠ name) (value : α)
    (entries : Entries α) :
    erase name (insert other value entries) = insert other value (erase name entries) := by
  induction entries with
  | nil => simp [erase, hne]
  | cons entry entries ih =>
    simp only [erase] at ih
    by_cases hname : entry.1 = name
    · simp [insert, erase, hname, Ne.symm hne, ih]
    · by_cases hother : entry.1 = other <;> simp [insert, erase, hother, hname, hne, ih]

/-- **Removing a name before a run of the loop is removing it after**, by induction on the entries.
An entry of that name that is dropped wrote nothing that is kept. -/
theorem foldlM_writeEntry_erase {f : α → Except Error β} {entries : Entries α}
    {document written : Entries β} (h : entries.foldlM (writeEntry f) document = .ok written) :
    (erase name entries).foldlM (writeEntry f) (erase name document) =
      .ok (erase name written) := by
  induction entries generalizing document with
  | nil =>
    cases h
    rfl
  | cons entry entries ih =>
    rw [List.foldlM_cons, Fault.bind_eq_ok] at h
    obtain ⟨next, hnext, h⟩ := h
    obtain ⟨value, hvalue, rfl⟩ := writeEntry_eq_ok_iff.mp hnext
    have hrest := ih h
    by_cases hname : entry.1 = name
    · subst hname
      rw [erase_insert_self] at hrest
      rw [erase_cons_self]
      exact hrest
    · have hkept : erase name (entry :: entries) = entry :: erase name entries := by
        simp [erase, hname]
      have hwrite : writeEntry f (erase name document) entry =
          .ok (insert entry.1 value (erase name document)) :=
        writeEntry_eq_ok_iff.mpr ⟨value, hvalue, rfl⟩
      rw [erase_insert_of_ne hname] at hrest
      rw [hkept, List.foldlM_cons, hwrite]
      exact hrest

end Entries

/-- Named values in order, each name once. -/
structure OrderedMap (α : Type) where
  entries : Entries α
  nodup : (Entries.names entries).Nodup

/-- A change of named values. -/
inductive Edit (α : Type) where
  | insert (name : String) (value : α)
  | remove (name : String)

/-- Make changes in order, and collect what they answer. -/
def Edit.run {σ α : Type} (apply : σ → Edit α → Option Bool × σ) (state : σ) :
    List (Edit α) → List (Option Bool) × σ
  | [] => ([], state)
  | edit :: edits =>
    let (answer, next) := apply state edit
    let (answers, last) := run apply next edits
    (answer :: answers, last)

namespace OrderedMap

variable {α : Type}

/-- No names. -/
def empty : OrderedMap α := ⟨[], List.nodup_nil⟩

/-- The keys, in order. -/
def keys (map : OrderedMap α) : List String := Entries.names map.entries

theorem names_replace (name : String) (value : α) (entries : Entries α) :
    Entries.names (entries.map fun entry => if entry.1 = name then (name, value) else entry) =
      Entries.names entries := by
  rw [Entries.names, List.map_map]
  refine List.map_congr_left fun entry _ => ?_
  by_cases hname : entry.1 = name <;> simp [hname]

/-- Replace the value of a key in its place, or add the key at the end. -/
def insert (name : String) (value : α) (map : OrderedMap α) : OrderedMap α :=
  if h : name ∈ map.keys then
    ⟨map.entries.map fun entry => if entry.1 = name then (name, value) else entry,
      names_replace name value map.entries ▸ map.nodup⟩
  else
    ⟨map.entries ++ [(name, value)],
      Entries.insert_of_notMem value h ▸ Entries.names_insert_nodup value map.nodup⟩

/-- Delete a key; the others keep their order. -/
def remove (name : String) (map : OrderedMap α) : OrderedMap α :=
  ⟨map.entries.filter fun entry => entry.1 != name, Entries.names_erase_nodup map.nodup⟩

/-- Make a change. A removal answers whether the key is there. -/
def apply (map : OrderedMap α) : Edit α → Option Bool × OrderedMap α
  | .insert name value => (none, map.insert name value)
  | .remove name => (some (decide (name ∈ map.keys)), map.remove name)

/-- Among distinct names, the entry of one is replaced where it stands. -/
theorem replace_eq_insert {name : String} (value : α) {entries : Entries α}
    (hnodup : (Entries.names entries).Nodup) (h : name ∈ Entries.names entries) :
    (entries.map fun entry => if entry.1 = name then (name, value) else entry) =
      Entries.insert name value entries := by
  induction entries with
  | nil => contradiction
  | cons entry entries ih =>
    obtain ⟨key, old⟩ := entry
    obtain ⟨hkey, hrest⟩ := List.nodup_cons.mp hnodup
    rw [List.map_cons, Entries.insert]
    by_cases hname : key = name
    · subst hname
      have hothers : ∀ entry ∈ entries, entry.1 ≠ key := by
        intro entry hmem heq
        have hname := Entries.mem_names_of_mem hmem
        rw [heq] at hname
        exact hkey hname
      rw [if_pos rfl, if_pos rfl]
      congr 1
      exact (List.map_congr_left fun entry hmem => if_neg (hothers entry hmem)).trans
        (List.map_id' entries)
    · rw [if_neg hname, if_neg hname,
        ih hrest ((List.mem_cons.mp h).resolve_left (Ne.symm hname))]

theorem entries_insert (name : String) (value : α) (map : OrderedMap α) :
    (map.insert name value).entries = Entries.insert name value map.entries := by
  by_cases h : name ∈ map.keys
  · rw [insert, dif_pos h]
    exact replace_eq_insert value map.nodup h
  · rw [insert, dif_neg h]
    exact (Entries.insert_of_notMem value h).symm

end OrderedMap

/-- The change with the wire form of what is inserted. -/
def Edit.render : Edit Host → Except Error (Edit Json)
  | .insert name host => do
    let value ← host.render
    return .insert name value
  | .remove name => .ok (.remove name)

namespace Fields

/-- Make a change to the log. A removal answers whether it took an entry. -/
def apply (fields : Fields) : Edit Host → Option Bool × Fields
  | .insert name host => (none, fields.insert name host)
  | .remove name =>
    let (found, kept) := fields.remove name
    (some found, kept)

variable {fields : Fields} {name : String}

/-- Fewer entries are left exactly if one has the name. -/
theorem remove_found (name : String) (fields : Fields) :
    (fields.remove name).1 = decide (name ∈ Entries.names fields) := by
  by_cases hname : name ∈ Entries.names fields
  · obtain ⟨entry, hmem, hentry⟩ := List.mem_map.mp hname
    have hfewer : (Entries.erase name fields).length < fields.length :=
      List.length_filter_lt_length_iff_exists.mpr ⟨entry, hmem, by simp [hentry]⟩
    simp [remove, hname, hfewer.ne]
  · simp [remove, hname, Entries.erase_of_notMem hname]

/-- A name is a key of the rendered document exactly if some entry has it. -/
theorem mem_names_of_render {document : Entries Json} (h : fields.render = .ok document) :
    name ∈ Entries.names document ↔ name ∈ Entries.names fields := by
  rw [(collapsed_of_render h).names_eq, List.mem_eraseDups]

theorem render_insert {document : Entries Json} (h : fields.render = .ok document) {host : Host}
    {value : Json} (hvalue : host.render = .ok value) :
    (fields.insert name host).render = .ok (Entries.insert name value document) := by
  rw [render_eq_foldlM] at h
  rw [render_eq_foldlM, insert, List.foldlM_append, h, Fault.ok_bind, List.foldlM_cons]
  have hwrite : Entries.writeEntry Coerced.render document (name, host.coerce) =
      .ok (Entries.insert name value document) :=
    Entries.writeEntry_eq_ok_iff.mpr ⟨value, hvalue, rfl⟩
  rw [hwrite]
  rfl

theorem render_remove {document : Entries Json} (h : fields.render = .ok document) :
    (fields.remove name).2.render = .ok (Entries.erase name document) := by
  rw [render_eq_foldlM] at h
  rw [render_eq_foldlM]
  exact Entries.foldlM_writeEntry_erase h

end Fields

/-! ## Runs -/

/-- **One change keeps fields and map together**, and both give the same answer. -/
theorem Edit.simulates {edit : Edit Host} {written : Edit Json} {fields : Fields}
    {map : OrderedMap Json} (h : fields.render = .ok map.entries)
    (hedit : edit.render = .ok written) :
    (fields.apply edit).1 = (map.apply written).1 ∧
      (fields.apply edit).2.render = .ok (map.apply written).2.entries := by
  cases edit with
  | insert name host =>
    rw [Edit.render, Fault.bind_eq_ok] at hedit
    obtain ⟨value, hvalue, hwritten⟩ := hedit
    cases hwritten
    refine ⟨rfl, ?_⟩
    rw [Fields.apply, OrderedMap.apply, OrderedMap.entries_insert]
    exact Fields.render_insert h hvalue
  | remove name =>
    cases hedit
    refine ⟨congrArg some ((Fields.remove_found name fields).trans ?_), Fields.render_remove h⟩
    simp only [OrderedMap.keys, Fields.mem_names_of_render h]

/-- So does a run of changes, by induction on the changes. -/
theorem Fields.run_simulates {edits : List (Edit Host)} {written : List (Edit Json)}
    (hedits : List.Forall₂ (fun edit edit' => Edit.render edit = .ok edit') edits written)
    {fields : Fields} {map : OrderedMap Json} (h : fields.render = .ok map.entries) :
    (Edit.run apply fields edits).1 = (Edit.run OrderedMap.apply map written).1 ∧
      (Edit.run apply fields edits).2.render =
        .ok (Edit.run OrderedMap.apply map written).2.entries := by
  induction hedits generalizing fields map with
  | nil => exact ⟨rfl, h⟩
  | cons hedit _ ih =>
    obtain ⟨hanswer, hnext⟩ := Edit.simulates h hedit
    obtain ⟨hanswers, hlast⟩ := ih hnext
    simp only [Edit.run]
    exact ⟨by rw [hanswer, hanswers], hlast⟩

/-- Changes have wire forms when all that they insert is rendered. -/
theorem Edit.exists_render {edits : List (Edit Host)}
    (h : ∀ name host, Edit.insert name host ∈ edits → ∃ value, host.render = .ok value) :
    ∃ written, edits.mapM Edit.render = .ok written := by
  rw [Fault.mapM_succeeds_iff]
  intro edit hmem
  cases edit with
  | insert name host =>
    obtain ⟨value, hvalue⟩ := h name host hmem
    exact ⟨.insert name value, by rw [Edit.render, hvalue]; rfl⟩
  | remove name => exact ⟨.remove name, rfl⟩

/-- **Fields are the log of an ordered map.** Insertions of values that are rendered and removals
in any order, from no fields on: the fields render to the map that results from the same changes
with the rendered values, and every removal answers whether its name was a key of the map then. -/
theorem Fields.run_refines (edits : List (Edit Host))
    (h : ∀ name host, Edit.insert name host ∈ edits → ∃ value, host.coerce.render = .ok value) :
    ∃ written, edits.mapM Edit.render = .ok written ∧
      (Edit.run apply empty edits).2.render =
        .ok (Edit.run OrderedMap.apply .empty written).2.entries ∧
      (Edit.run apply empty edits).1 = (Edit.run OrderedMap.apply .empty written).1 := by
  obtain ⟨written, hwritten⟩ := Edit.exists_render h
  have hempty : Fields.empty.render = .ok (OrderedMap.empty (α := Json)).entries := rfl
  obtain ⟨hanswers, hrender⟩ := run_simulates (Fault.mapM_eq_ok.mp hwritten) hempty
  exact ⟨written, hwritten, hrender, hanswers⟩

/-- A name is written twice, removed twice and written again, behind the name that stood after
it. -/
def rewrittenName : List (Edit Host) :=
  [.insert "a" (.integer 1), .insert "b" (.string "$x"), .insert "a" (.boolean true), .remove "a",
    .remove "a", .insert "a" (.sequence []), .remove "c"]

theorem Fields.run_refines_rewrittenName :
    (∀ name host, Edit.insert name host ∈ rewrittenName →
      ∃ value, host.coerce.render = .ok value) ∧
    (Edit.run apply empty rewrittenName).2.render =
      .ok [("b", .string "$x"), ("a", .array [])] ∧
    (Edit.run apply empty rewrittenName).1 =
      [none, none, none, some true, some false, none, some false] := by
  have hrendered : ∀ name host, Edit.insert name host ∈ rewrittenName →
      ∃ value, host.coerce.render = .ok value := by
    intro name host hmem
    simp only [rewrittenName, List.mem_cons, List.not_mem_nil, reduceCtorEq, or_false,
      false_or, Edit.insert.injEq] at hmem
    obtain ⟨-, rfl⟩ | ⟨-, rfl⟩ | ⟨-, rfl⟩ | ⟨-, rfl⟩ := hmem <;> exact ⟨_, rfl⟩
  obtain ⟨written, hwritten, hrender, hanswers⟩ := Fields.run_refines rewrittenName hrendered
  have hchanges : rewrittenName.mapM Edit.render = .ok
      [.insert "a" (.integer 1), .insert "b" (.string "$x"), .insert "a" (.bool true),
        .remove "a", .remove "a", .insert "a" (.array []), .remove "c"] :=
    Fault.mapM_eq_ok.mpr (.cons rfl (.cons rfl (.cons rfl (.cons rfl (.cons rfl (.cons rfl
      (.cons rfl .nil)))))))
  cases hwritten.symm.trans hchanges
  exact ⟨hrendered, hrender, hanswers⟩

end Aggregation
