import Aggregation.Proofs.RepeatedNames

/-!
# The id of a group

The payload of a `$group` is written in three steps: the id, then the accumulators without those
named `_id`, rendered into a document of their own, and this document into the one with the id.
After the first step the name `_id` does not come again, so the id stays in front as it is.

## Main results

* `Stage.payload_groupBy` - the id, followed by the rendered accumulators of other names.
* `Stage.payload_groupBy_integrity` - which names and values these are, and that accumulators
  named `_id` count for nothing.
-/

namespace Aggregation

namespace Entries

variable {α : Type} {name other : String} {value : α} {entries : Entries α}

/-- Erasing a name leaves the last entries of the others. -/
theorem isLast_erase_iff :
    IsLast (erase other entries) name value ↔ name ≠ other ∧ IsLast entries name value := by
  induction entries with
  | nil => exact iff_of_false not_isLast_nil fun h => not_isLast_nil h.2
  | cons entry entries ih =>
    by_cases hentry : entry.1 = other
    · have hne : name ≠ other → entry ≠ (name, value) := by
        rintro hname rfl
        exact hname hentry
      obtain ⟨key, first⟩ := entry
      cases hentry
      rw [erase_cons_self, ih, isLast_cons_iff]
      constructor
      · exact And.imp_right .inr
      · exact fun ⟨hname, h⟩ => ⟨hname, h.resolve_left fun h => hne hname h.1⟩
    · have herase : erase other (entry :: entries) = entry :: erase other entries := by
        simp [erase, hentry]
      rw [herase, isLast_cons_iff, isLast_cons_iff, ih, mem_names_erase]
      constructor
      · rintro (⟨rfl, hlast⟩ | ⟨hname, h⟩)
        · exact ⟨hentry, .inl ⟨rfl, fun hmem => hlast ⟨hmem, hentry⟩⟩⟩
        · exact ⟨hname, .inr h⟩
      · rintro ⟨hname, ⟨rfl, hlast⟩ | h⟩
        · exact .inl ⟨rfl, fun hmem => hlast hmem.1⟩
        · exact .inr ⟨hname, h⟩

theorem names_erase (other : String) (entries : Entries α) :
    names (erase other entries) = (names entries).filter fun name => name != other := by
  rw [names, names, erase, List.filter_map]
  rfl

end Entries

namespace Stage

/-- The fields of a `$group` are rendered into a document, which is written behind the id. -/
theorem payload_group_eq_render (id : Json) (accumulators : Fields) :
    (Stage.group id accumulators).payload = accumulators.render >>= fun document =>
      .ok (.object (Entries.insertAll [("_id", id)] document)) := by
  rw [Stage.payload, Fields.render, bind_assoc]
  rfl

/-- **The payload of a `$group`**: the id, then the rendered accumulators of other names. -/
theorem payload_groupBy (id : Json) (accumulators : Fields) :
    (groupBy id accumulators).payload =
      Fields.render (Entries.erase "_id" accumulators) >>= fun document =>
        .ok (.object (("_id", id) :: document)) := by
  rw [groupBy, payload_group_eq_render]
  cases hrender : Fields.render (Entries.erase "_id" accumulators) with
  | error e => rfl
  | ok document =>
    have hcollapsed := Fields.collapsed_of_render hrender
    have hid : "_id" ∉ Entries.names document := by
      rw [hcollapsed.names_eq, List.mem_eraseDups]
      exact Entries.notMem_names_erase "_id" accumulators
    have hdistinct : (Entries.names ([("_id", id)] ++ document)).Nodup :=
      List.nodup_cons.mpr ⟨hid, hcollapsed.nodup⟩
    rw [Fault.ok_bind, Fault.ok_bind, Entries.insertAll_of_nodup hdistinct]
    rfl

/-- **The id of a group is kept.** The payload is there exactly if all accumulators render that are
not named `_id`. It starts with the id as it was given. Behind it stand the other names, once each
and in order of their first entries, with what the last entry of the name renders to. Entries
named `_id`, wherever they stand, change neither the payload nor the fault. -/
theorem payload_groupBy_integrity (id : Json) (accumulators : Fields) :
    ((∃ payload, (groupBy id accumulators).payload = .ok payload) ↔
      ∀ entry ∈ accumulators, entry.1 ≠ "_id" → ∃ value, entry.2.render = .ok value) ∧
    (∀ payload, (groupBy id accumulators).payload = .ok payload →
      ∃ document, payload = .object (("_id", id) :: document) ∧
        Entries.names document =
          ((Entries.names accumulators).filter fun name => name != "_id").eraseDups ∧
        ∀ name value, (name, value) ∈ document ↔
          name ≠ "_id" ∧ ∃ c, Entries.IsLast accumulators name c ∧ c.render = .ok value) ∧
    ∀ accumulators' : Fields,
      (accumulators'.filter fun entry => entry.1 != "_id") =
        (accumulators.filter fun entry => entry.1 != "_id") →
      (groupBy id accumulators').payload = (groupBy id accumulators).payload := by
  refine ⟨?_, fun payload hpayload => ?_, fun accumulators' hsame => ?_⟩
  · rw [payload_groupBy, Fault.map_succeeds_iff, Fields.render_succeeds_iff]
    simp only [Entries.mem_erase, and_imp]
  · rw [payload_groupBy, Fault.bind_eq_ok] at hpayload
    obtain ⟨document, hdocument, hpayload⟩ := hpayload
    have hcollapsed := Fields.collapsed_of_render hdocument
    refine ⟨document, (Except.ok.inj hpayload).symm, ?_, fun name value => ?_⟩
    · rw [hcollapsed.names_eq, Entries.names_erase]
    · rw [hcollapsed.mem_iff]
      simp only [Entries.isLast_erase_iff, and_assoc, exists_and_left]
  · rw [payload_groupBy, payload_groupBy, Entries.erase, Entries.erase, hsame]

/-- Accumulators of which the ones named `_id` have no wire form. -/
def collidingAccumulators : Fields :=
  Fields.ofEntries [("_id", .null), ("n", .integer 1), ("m", .integer 2), ("_id", .null),
    ("n", .boolean true), ("_id", .integer 3)]

/-- Neither do they fail, nor do they touch an id of digits. -/
theorem payload_groupBy_integrity_colliding :
    (∃ payload, (groupBy (.string "2024") collidingAccumulators).payload = .ok payload) ∧
      (groupBy (.string "2024") collidingAccumulators).payload =
        (groupBy (.string "2024") (Fields.ofEntries
          [("n", .integer 1), ("m", .integer 2), ("n", .boolean true)])).payload ∧
      ∃ document : Entries Json, (groupBy (.string "2024") collidingAccumulators).payload =
          .ok (.object (("_id", .string "2024") :: document)) ∧
        Entries.names document = ["n", "m"] ∧ ("n", .bool true) ∈ document := by
  obtain ⟨-, hdocument, hsame⟩ := payload_groupBy_integrity (.string "2024") collidingAccumulators
  have hpayload : (groupBy (.string "2024") collidingAccumulators).payload =
      .ok (.object [("_id", .string "2024"), ("n", .bool true), ("m", .integer 2)]) := rfl
  obtain ⟨document, heq, hnames, -⟩ := hdocument _ hpayload
  cases heq
  refine ⟨⟨_, hpayload⟩, (hsame _ rfl).symm, _, hpayload, ?_, List.mem_cons_self⟩
  exact hnames.trans (by decide)

end Stage
end Aggregation
