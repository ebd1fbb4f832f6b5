import Aggregation.Entries
import Mathlib.Data.List.Nodup

/-!
# Documents with distinct names

Writing entries with distinct names one after the other leaves them as they are. A name
that is present is found under its only entry, and erasing one keeps the order of the
others.
-/

namespace Aggregation.Entries

universe u v
variable {α : Type u} {β : Type v}

@[simp] theorem names_nil : names ([] : Entries α) = [] := rfl

@[simp] theorem names_cons (entry : String × α) (entries : Entries α) :
    names (entry :: entries) = entry.1 :: names entries := rfl

@[simp] theorem names_append (first second : Entries α) :
    names (first ++ second) = names first ++ names second := List.map_append

theorem mem_names_of_mem {entries : Entries α} {entry : String × α} (h : entry ∈ entries) :
    entry.1 ∈ names entries := List.mem_map_of_mem h

/-- Of values that are put under names, each has one of the names, in order. -/
theorem names_zip_sublist (names : List String) (values : List α) :
    (Entries.names (names.zip values)).Sublist names := by
  induction names generalizing values with
  | nil => exact .slnil
  | cons name names ih =>
    cases values with
    | nil => exact List.nil_sublist _
    | cons value values => exact (ih values).cons_cons name

/-! ## Writing -/

theorem insert_of_notMem {name : String} {entries : Entries α} (value : α)
    (h : name ∉ names entries) : insert name value entries = entries ++ [(name, value)] := by
  induction entries with
  | nil => rfl
  | cons entry entries ih =>
    obtain ⟨hne, hrest⟩ := not_or.mp (mt List.mem_cons.mpr h)
    rw [insert, if_neg (Ne.symm hne), ih hrest, List.cons_append]

/-- New names are written behind the document, in order. -/
theorem insertAll_of_nodup {document entries : Entries α}
    (h : (names (document ++ entries)).Nodup) :
    insertAll document entries = document ++ entries := by
  induction entries generalizing document with
  | nil => simp
  | cons entry entries ih =>
    have hnew : entry.1 ∉ names document := by
      rw [names_append, names_cons, List.nodup_append] at h
      exact fun hmem => h.2.2 _ hmem _ List.mem_cons_self rfl
    rw [insertAll_cons, insert_of_notMem entry.2 hnew, ih (by simpa using h),
      List.append_assoc, List.singleton_append]

/-- Distinct names keep their places and values. -/
theorem collapse_of_nodup {entries : Entries α} (h : (names entries).Nodup) :
    collapse entries = entries := insertAll_of_nodup h

/-- What is written under other names leaves the first entry where and what it is. -/
theorem insertAll_cons_of_notMem {name : String} {value : α} {entries : Entries α}
    (document : Entries α) (h : name ∉ names entries) :
    insertAll ((name, value) :: document) entries =
      (name, value) :: insertAll document entries := by
  induction entries generalizing document with
  | nil => rfl
  | cons entry entries ih =>
    obtain ⟨hne, hrest⟩ := not_or.mp (mt List.mem_cons.mpr h)
    rw [insertAll_cons, insert, if_neg hne, ih _ hrest, insertAll_cons]

/-- Whatever is written into a document, its first name stays the first. -/
theorem exists_insertAll_cons (name : String) (value : α) (document entries : Entries α) :
    ∃ value' rest, insertAll ((name, value) :: document) entries = (name, value') :: rest := by
  induction entries generalizing value document with
  | nil => exact ⟨value, document, rfl⟩
  | cons entry entries ih =>
    rw [insertAll_cons, insert]
    split
    · exact ih entry.2 document
    · exact ih value _

/-- Writing a name that is present keeps the names and their places. -/
theorem names_insert_of_mem {name : String} {entries : Entries α} (value : α)
    (h : name ∈ names entries) : names (insert name value entries) = names entries := by
  fun_induction insert name value entries <;> simp_all [eq_comm]

theorem names_insert (name : String) (value : α) (entries : Entries α) :
    names (insert name value entries) =
      if name ∈ names entries then names entries else names entries ++ [name] := by
  split
  · exact names_insert_of_mem value ‹_›
  · rw [insert_of_notMem value ‹_›, names_append]
    rfl

theorem mem_names_insert_iff {name other : String} {value : α} {entries : Entries α} :
    other ∈ names (insert name value entries) ↔ other = name ∨ other ∈ names entries := by
  rw [names_insert]
  split <;> grind

/-- Writing a name keeps the names distinct. -/
theorem names_insert_nodup {name : String} {entries : Entries α} (value : α)
    (h : (names entries).Nodup) : (names (insert name value entries)).Nodup := by
  by_cases hname : name ∈ names entries
  · rwa [names_insert_of_mem value hname]
  · rw [insert_of_notMem value hname, names_append, List.nodup_append]
    refine ⟨h, by simp, fun other hother key hkey heq => hname ?_⟩
    rw [names_cons, names_nil, List.mem_singleton] at hkey
    rwa [heq, hkey] at hother

theorem insert_insert_self (name : String) (old value : α) (entries : Entries α) :
    insert name value (insert name old entries) = insert name value entries := by
  fun_induction insert name old entries <;> simp_all [insert]

/-- A name that is present can be written before another name or after it. -/
theorem insert_insert_comm {name other : String} {entries : Entries α} (value value' : α)
    (hne : other ≠ name) (h : name ∈ names entries) :
    insert name value (insert other value' entries) =
      insert other value' (insert name value entries) := by
  induction entries with
  | nil => contradiction
  | cons entry entries ih =>
    obtain ⟨key, old⟩ := entry
    simp only [insert]
    split <;> split <;> simp_all [insert, eq_comm]

theorem insert_insertAll_comm {name : String} {document entries : Entries α} (value : α)
    (hpresent : name ∈ names document) (hnew : name ∉ names entries) :
    insert name value (insertAll document entries) =
      insertAll (insert name value document) entries := by
  induction entries generalizing document with
  | nil => rfl
  | cons entry entries ih =>
    obtain ⟨hne, hrest⟩ := not_or.mp (mt List.mem_cons.mpr hnew)
    rw [insertAll_cons, insertAll_cons, ← insert_insert_comm value entry.2 (Ne.symm hne) hpresent]
    exact ih (mem_names_insert_iff.mpr (.inr hpresent)) hrest

/-- Writing a document into another, one name of it is written as if it came last. -/
theorem insertAll_insert {document entries : Entries α} (h : (names entries).Nodup)
    (name : String) (value : α) :
    insertAll document (insert name value entries) =
      insert name value (insertAll document entries) := by
  induction entries generalizing document with
  | nil => rfl
  | cons entry entries ih =>
    obtain ⟨key, old⟩ := entry
    obtain ⟨hkey, hrest⟩ := List.nodup_cons.mp h
    rw [insert]
    split
    · rename_i hname
      subst hname
      have hpresent : key ∈ names (insert key old document) := mem_names_insert_iff.mpr (.inl rfl)
      rw [insertAll_cons, insertAll_cons, insert_insertAll_comm value hpresent hkey,
        insert_insert_self]
    · rw [insertAll_cons, insertAll_cons, ih hrest]

/-- **Writing a written document is writing its entries**, one after the other. -/
theorem insertAll_insertAll (document : Entries α) {written : Entries α} (entries : Entries α)
    (h : (names written).Nodup) :
    insertAll document (insertAll written entries) =
      insertAll (insertAll document written) entries := by
  induction entries generalizing written with
  | nil => rfl
  | cons entry entries ih =>
    rw [insertAll_cons, insertAll_cons, ih (names_insert_nodup entry.2 h), insertAll_insert h]

theorem insertAll_collapse (document entries : Entries α) :
    insertAll document (collapse entries) = insertAll document entries :=
  insertAll_insertAll document entries List.nodup_nil

theorem mem_of_mem_insert {name : String} {value : α} {entries : Entries α}
    {entry : String × α} (h : entry ∈ insert name value entries) :
    entry = (name, value) ∨ entry ∈ entries := by
  fun_induction insert name value entries <;> grind

theorem names_insertAll_nodup {document : Entries α} (entries : Entries α)
    (h : (names document).Nodup) : (names (insertAll document entries)).Nodup := by
  induction entries generalizing document with
  | nil => exact h
  | cons entry entries ih =>
    rw [insertAll_cons]
    exact ih (names_insert_nodup entry.2 h)

theorem mem_of_mem_insertAll {document entries : Entries α} {entry : String × α}
    (h : entry ∈ insertAll document entries) : entry ∈ document ∨ entry ∈ entries := by
  induction entries generalizing document with
  | nil => exact .inl h
  | cons first entries ih =>
    rw [insertAll_cons] at h
    rcases ih h with hdocument | hentries
    · rcases mem_of_mem_insert hdocument with heq | hold
      · exact .inr (List.mem_cons.mpr (.inl heq))
      · exact .inl hold
    · exact .inr (List.mem_cons_of_mem _ hentries)

/-- **A document that was written has distinct names.** -/
theorem names_collapse_nodup (entries : Entries α) : (names (collapse entries)).Nodup :=
  names_insertAll_nodup entries List.nodup_nil

theorem mem_of_mem_collapse {entries : Entries α} {entry : String × α}
    (h : entry ∈ collapse entries) : entry ∈ entries :=
  (mem_of_mem_insertAll h).resolve_left List.not_mem_nil

/-! ## Looking up -/

theorem lookup?_eq_none_iff {name : String} {entries : Entries α} :
    lookup? name entries = none ↔ name ∉ names entries := by
  induction entries with
  | nil => simp
  | cons entry entries ih =>
    by_cases hname : entry.1 = name
    · simp [lookup?, hname]
    · simp [lookup?, hname, ih, Ne.symm hname]

theorem mem_of_lookup? {name : String} {value : α} {entries : Entries α}
    (h : lookup? name entries = some value) : (name, value) ∈ entries := by
  induction entries with
  | nil => simp at h
  | cons entry entries ih =>
    rw [lookup?] at h
    split at h
    · rename_i hname
      cases h
      exact hname ▸ List.mem_cons_self
    · exact List.mem_cons_of_mem _ (ih h)

/-- A name that occurs once finds its value. -/
theorem lookup?_of_mem {entries : Entries α} (h : (names entries).Nodup) {entry : String × α}
    (hmem : entry ∈ entries) : lookup? entry.1 entries = some entry.2 := by
  induction entries with
  | nil => contradiction
  | cons first entries ih =>
    obtain ⟨hfirst, hrest⟩ := List.nodup_cons.mp h
    rw [lookup?]
    rcases List.mem_cons.mp hmem with rfl | hmem
    · rw [if_pos rfl]
    · have hne : first.1 ≠ entry.1 := fun heq => hfirst (heq ▸ mem_names_of_mem hmem)
      rw [if_neg hne, ih hrest hmem]

/-- Every name finds what was computed for it. -/
theorem lookup?_map {name : String} {names : List String} (f : String → α) (h : name ∈ names) :
    lookup? name (names.map fun key => (key, f key)) = some (f name) := by
  induction names with
  | nil => contradiction
  | cons key names ih =>
    rw [List.map_cons, lookup?]
    by_cases hname : key = name
    · rw [if_pos hname, hname]
    · rw [if_neg hname, ih ((List.mem_cons.mp h).resolve_left (Ne.symm hname))]

/-! ## Erasing -/

theorem erase_cons_self (name : String) (value : α) (entries : Entries α) :
    erase name ((name, value) :: entries) = erase name entries := by
  simp [erase]

theorem mem_erase {name : String} {entry : String × α} {entries : Entries α} :
    entry ∈ erase name entries ↔ entry ∈ entries ∧ entry.1 ≠ name := by
  simp [erase]

theorem names_erase_nodup {name : String} {entries : Entries α} (h : (names entries).Nodup) :
    (names (erase name entries)).Nodup :=
  h.sublist (List.filter_sublist.map Prod.fst)

theorem mem_names_erase {name name' : String} {entries : Entries α} :
    name' ∈ names (erase name entries) ↔ name' ∈ names entries ∧ name' ≠ name := by
  simp only [names, List.mem_map, mem_erase]
  constructor
  · rintro ⟨entry, ⟨hmem, hname⟩, rfl⟩
    exact ⟨⟨entry, hmem, rfl⟩, hname⟩
  · rintro ⟨⟨entry, hmem, rfl⟩, hname⟩
    exact ⟨entry, ⟨hmem, hname⟩, rfl⟩

theorem notMem_names_erase (name : String) (entries : Entries α) :
    name ∉ names (erase name entries) :=
  fun h => (mem_names_erase.mp h).2 rfl

theorem erase_of_notMem {name : String} {entries : Entries α} (h : name ∉ names entries) :
    erase name entries = entries := by
  rw [erase, List.filter_eq_self]
  intro entry hmem
  have hne : entry.1 ≠ name := fun hname => h (hname ▸ mem_names_of_mem hmem)
  simpa using hne

end Aggregation.Entries
