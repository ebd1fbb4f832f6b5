import Aggregation.Proofs.HostParts
import Mathlib.Data.List.Induction

/-!
# Repeated names

Entries are rendered one after the other, and each is written into the document as it comes. What
the loop keeps is that the document has every name that has come, at the place of its first
entry, with what its last one gave. An entry that is overwritten later has to render all the same.

## Main definitions

* `Entries.IsLast` - the last entry of its name.
* `Entries.Collapsed` - each name once, at its first place, with what its last value gives.
* `Entries.writeEntry` - one step of the loop.

## Main results

* `Entries.Collapsed.insert`, `Entries.collapsed_of_foldlM` - what a step and a run of the loop
  keep.
* `Fields.render_eq_foldlM` - fields are rendered by that loop.
* `Host.render_repeatedNames` - fields, maps and mappings treat repeated names alike.
-/

namespace Aggregation

namespace Entries

variable {α β : Type} {name : String} {value : α} {entries : Entries α}

/-! ## The last entry of a name -/

/-- The value stands under the name, and no entry of that name comes after it. -/
def IsLast (entries : Entries α) (name : String) (value : α) : Prop :=
  ∃ before after, entries = before ++ (name, value) :: after ∧ name ∉ names after

theorem not_isLast_nil : ¬ IsLast [] name value := by
  rintro ⟨before, after, heq, -⟩
  simp at heq

theorem isLast_cons_iff {entry : String × α} : IsLast (entry :: entries) name value ↔
    entry = (name, value) ∧ name ∉ names entries ∨ IsLast entries name value := by
  constructor
  · rintro ⟨before, after, heq, hafter⟩
    cases before with
    | nil =>
      obtain ⟨rfl, rfl⟩ := List.cons.inj heq
      exact .inl ⟨rfl, hafter⟩
    | cons _ before =>
      obtain ⟨rfl, rfl⟩ := List.cons.inj heq
      exact .inr ⟨before, after, rfl, hafter⟩
  · rintro (⟨rfl, hafter⟩ | ⟨before, after, rfl, hafter⟩)
    · exact ⟨[], entries, rfl, hafter⟩
    · exact ⟨entry :: before, after, rfl, hafter⟩

/-- A new entry is the last of its name, and takes nothing from other names. -/
theorem isLast_append_singleton_iff {entry : String × α} :
    IsLast (entries ++ [entry]) name value ↔
      entry = (name, value) ∨ name ≠ entry.1 ∧ IsLast entries name value := by
  induction entries with
  | nil => simp [isLast_cons_iff, not_isLast_nil]
  | cons first entries ih =>
    rw [List.cons_append, isLast_cons_iff, ih, isLast_cons_iff, names_append, List.mem_append]
    simp only [names_cons, names_nil, List.mem_singleton]
    tauto

/-! ## What writing keeps -/

/-- The document has the names of the entries once each, in order of their first entries. Under
each stands what the function gives for the value of its last entry. -/
structure Collapsed (f : α → Except Error β) (entries : Entries α) (document : Entries β) :
    Prop where
  nodup : (names document).Nodup
  names_eq : names document = (names entries).eraseDups
  mem_iff : ∀ name value,
    (name, value) ∈ document ↔ ∃ a, IsLast entries name a ∧ f a = .ok value

/-- Among distinct names, writing one changes the entry of that name only. -/
theorem mem_insert_iff {document : Entries α} (h : (names document).Nodup) {entry : String × α} :
    entry ∈ insert name value document ↔
      entry = (name, value) ∨ entry.1 ≠ name ∧ entry ∈ document := by
  induction document with
  | nil => simp
  | cons first document ih =>
    obtain ⟨key, old⟩ := first
    obtain ⟨hkey, hrest⟩ := List.nodup_cons.mp h
    rw [insert]
    by_cases hname : key = name
    · subst hname
      have hne : entry ∈ document → entry.1 ≠ key := by
        rintro hmem rfl
        have hname := mem_names_of_mem hmem
        exact hkey hname
      rw [if_pos rfl, List.mem_cons, List.mem_cons]
      constructor
      · exact Or.imp_right fun hmem => ⟨hne hmem, .inr hmem⟩
      · rintro (rfl | ⟨hne, rfl | hmem⟩)
        · exact .inl rfl
        · exact absurd rfl hne
        · exact .inr hmem
    · rw [if_neg hname, List.mem_cons, List.mem_cons, ih hrest]
      constructor
      · rintro (rfl | rfl | ⟨hne, hmem⟩)
        · exact .inr ⟨hname, .inl rfl⟩
        · exact .inl rfl
        · exact .inr ⟨hne, .inr hmem⟩
      · rintro (rfl | ⟨hne, rfl | hmem⟩)
        · exact .inr (.inl rfl)
        · exact .inl rfl
        · exact .inr (.inr ⟨hne, hmem⟩)

theorem eraseDups_append_singleton (names : List String) (name : String) :
    (names ++ [name]).eraseDups =
      if name ∈ names then names.eraseDups else names.eraseDups ++ [name] := by
  rw [List.eraseDups_append]
  split <;> simp_all [List.removeAll, List.eraseDups_cons]

variable {f : α → Except Error β} {document : Entries β}

/-- **One write keeps a document collapsed.** -/
theorem Collapsed.insert (h : Collapsed f entries document) (name : String) {a : α} {b : β}
    (hb : f a = .ok b) : Collapsed f (entries ++ [(name, a)]) (Entries.insert name b document) where
  nodup := names_insert_nodup b h.nodup
  names_eq := by
    rw [names_insert, names_append, names_cons, names_nil, eraseDups_append_singleton, h.names_eq]
    simp only [List.mem_eraseDups]
  mem_iff key old := by
    rw [mem_insert_iff h.nodup, h.mem_iff]
    simp only [isLast_append_singleton_iff]
    constructor
    · rintro (heq | ⟨hne, a', hlast, hold⟩)
      · cases heq
        exact ⟨a, .inl rfl, hb⟩
      · exact ⟨a', .inr ⟨hne, hlast⟩, hold⟩
    · rintro ⟨a', heq | ⟨hne, hlast⟩, hold⟩
      · cases heq
        cases hb.symm.trans hold
        exact .inl rfl
      · exact .inr ⟨hne, a', hlast, hold⟩

/-! ## The loop -/

/-- Compute what the value of an entry gives, and write it into the document. -/
def writeEntry (f : α → Except Error β) (document : Entries β) (entry : String × α) :
    Except Error (Entries β) := do
  let value ← f entry.2
  return insert entry.1 value document

theorem writeEntry_eq_ok_iff {entry : String × α} {written : Entries β} :
    writeEntry f document entry = .ok written ↔
      ∃ value, f entry.2 = .ok value ∧ insert entry.1 value document = written := by
  rw [writeEntry, Fault.bind_eq_ok]
  simp [pure, Except.pure]

/-- **A run of the loop collapses the entries.** -/
theorem collapsed_of_foldlM (h : entries.foldlM (writeEntry f) [] = .ok document) :
    Collapsed f entries document := by
  induction entries using List.reverseRecOn generalizing document with
  | nil =>
    cases h
    exact ⟨List.nodup_nil, rfl, fun _ _ => iff_of_false List.not_mem_nil
      fun ⟨_, hlast, _⟩ => not_isLast_nil hlast⟩
  | append_singleton entries entry ih =>
    rw [List.foldlM_append, Fault.bind_eq_ok] at h
    obtain ⟨written, hwritten, hstep⟩ := h
    rw [List.foldlM_cons, Fault.bind_eq_ok] at hstep
    obtain ⟨_, hstep, hdocument⟩ := hstep
    cases hdocument
    obtain ⟨value, hvalue, rfl⟩ := writeEntry_eq_ok_iff.mp hstep
    exact (ih hwritten).insert entry.1 hvalue

/-- The loop goes through when every entry gives something, overwritten or not. -/
theorem foldlM_writeEntry_succeeds_iff (document : Entries β) :
    (∃ written, entries.foldlM (writeEntry f) document = .ok written) ↔
      ∀ entry ∈ entries, ∃ value, f entry.2 = .ok value := by
  induction entries generalizing document with
  | nil => exact iff_of_true ⟨document, rfl⟩ (by simp)
  | cons entry entries ih =>
    rw [List.foldlM_cons, List.forall_mem_cons, writeEntry]
    cases f entry.2 with
    | error e => simp
    | ok value =>
      rw [Fault.ok_bind, and_iff_right ⟨value, rfl⟩]
      exact ih _

end Entries

/-! ## Fields -/

/-- Writing entries as they are rendered is rendering them all and writing them then. -/
theorem Coerced.foldlM_writeEntry (document : Entries Json) (fields : Fields) :
    fields.foldlM (Entries.writeEntry render) document =
      (renderEntries fields >>= fun written => .ok (Entries.insertAll document written)) := by
  induction fields generalizing document with
  | nil =>
    rw [renderEntries]
    rfl
  | cons entry fields ih =>
    rw [List.foldlM_cons, renderEntries, Entries.writeEntry]
    simp only [bind_assoc, pure_bind]
    exact bind_congr fun value => ih _

namespace Fields

/-- **Fields are rendered by a loop of writes.** -/
theorem render_eq_foldlM (fields : Fields) :
    fields.render = fields.foldlM (Entries.writeEntry Coerced.render) [] := by
  rw [Coerced.foldlM_writeEntry, render]
  rfl

theorem render_succeeds_iff {fields : Fields} : (∃ document, fields.render = .ok document) ↔
    ∀ entry ∈ fields, ∃ value, entry.2.render = .ok value := by
  rw [render_eq_foldlM]
  exact Entries.foldlM_writeEntry_succeeds_iff []

theorem collapsed_of_render {fields : Fields} {document : Entries Json}
    (h : fields.render = .ok document) : Entries.Collapsed Coerced.render fields document := by
  rw [render_eq_foldlM] at h
  exact Entries.collapsed_of_foldlM h

theorem payload_addFields (fields : Fields) : (Stage.addFields fields).payload =
    fields.render >>= fun document => .ok (.object document) := by
  rw [Stage.payload, render, bind_assoc]
  rfl

theorem payload_project (fields : Fields) : (Stage.project fields).payload =
    fields.render >>= fun document => .ok (.object document) := by
  rw [Stage.payload, render, bind_assoc]
  rfl

theorem render_map (fields : Fields) :
    (Value.map fields).render = fields.render >>= fun document => .ok (.object document) := by
  rw [Value.render, render, bind_assoc]
  rfl

end Fields

namespace Host

variable {entries : Entries Host}

/-- Fields of host values are rendered by the loop over the host values. -/
theorem render_fields_eq_foldlM (entries : Entries Host) :
    (Fields.ofEntries entries).render = entries.foldlM (Entries.writeEntry render) [] := by
  rw [Fields.render_eq_foldlM, Fields.ofEntries, coerceEntries_eq_map, List.foldlM_map]
  rfl

/-- **Repeated names are treated alike everywhere.** Fields that are inserted one by one or given
at once, a map and a mapping of the same entries have one outcome. It is a fault exactly if some
entry does not render, also one that is overwritten; otherwise it is the object with each name
once, in order of the first entries, and under it what the last entry of that name renders to. -/
theorem render_repeatedNames (entries : Entries Host) :
    entries.foldl (fun fields entry => fields.insert entry.1 entry.2) Fields.empty =
      Fields.ofEntries entries ∧
    (Stage.addFields (Fields.ofEntries entries)).payload = (Value.ofEntries entries).render ∧
    (Stage.project (Fields.ofEntries entries)).payload = (Value.ofEntries entries).render ∧
    (Host.mapping entries).coerce.render = (Value.ofEntries entries).render ∧
    ((∃ e, (Value.ofEntries entries).render = .error e) ↔
      ∃ entry ∈ entries, ∃ e, entry.2.coerce.render = .error e) ∧
    ∀ r, (Value.ofEntries entries).render = .ok r →
      ∃ document, r = .object document ∧
        Entries.Collapsed (fun host => host.coerce.render) entries document := by
  have hvalue : (Value.ofEntries entries).render =
      (Fields.ofEntries entries).render >>= fun document => .ok (.object document) :=
    Fields.render_map _
  refine ⟨foldl_insert_eq entries Fields.empty, ?_, ?_, ?_, ?_, fun r hr => ?_⟩
  · rw [Fields.payload_addFields, hvalue]
  · rw [Fields.payload_project, hvalue]
  · rw [coerce, Coerced.render_typed]
    rfl
  · rw [hvalue, render_fields_eq_foldlM, Fault.exists_error_iff, Fault.map_succeeds_iff,
      Entries.foldlM_writeEntry_succeeds_iff]
    simp only [Fault.exists_error_iff, not_forall, exists_prop]
    rfl
  · rw [hvalue, render_fields_eq_foldlM, Fault.bind_eq_ok] at hr
    obtain ⟨document, hdocument, hr⟩ := hr
    exact ⟨document, (Except.ok.inj hr).symm, Entries.collapsed_of_foldlM hdocument⟩

/-- Entries of which one is overwritten. -/
def overwrittenEntries : Entries Host :=
  [("a", .integer 1), ("b", .string "x"), ("a", .boolean true)]

/-- The overwritten name stays in front. An entry without a wire form fails although it is
overwritten. -/
theorem render_repeatedNames_overwritten :
    Entries.Collapsed (fun host => host.coerce.render) overwrittenEntries
      [("a", .bool true), ("b", .string "x")] ∧
      ∃ e, (Value.ofEntries [("a", .null), ("a", .integer 1)]).render = .error e := by
  have hrender : (Value.ofEntries overwrittenEntries).render =
      .ok (.object [("a", .bool true), ("b", .string "x")]) := rfl
  obtain ⟨-, -, -, -, -, hcollapsed⟩ := render_repeatedNames overwrittenEntries
  obtain ⟨document, hdocument, hcollapsed⟩ := hcollapsed _ hrender
  obtain ⟨-, -, -, -, hfault, -⟩ := render_repeatedNames [("a", .null), ("a", .integer 1)]
  cases hdocument
  exact ⟨hcollapsed, hfault.mpr ⟨_, List.mem_cons_self, _, rfl⟩⟩

end Host
end Aggregation
