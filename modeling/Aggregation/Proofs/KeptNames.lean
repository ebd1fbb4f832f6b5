import Aggregation.Proofs.WrittenPayloads

/-!
# The names that a stage keeps

An `$addFields`, a `$project`, a `$match` and a `$group` write something under every name of
their payload. A `$map`, a `$reduce` and a `$filter` write their arguments and nothing else, so
whatever other name stands in the payload is dropped, without a fault.

## Main results

* `Stage.mem_names_rewrite_iff` - the names that a stage writes.
* `Stage.mem_names_rendered_iff` - which names of a payload are among them.
-/

namespace Aggregation.Stage

variable {keyword : Keyword} {entries written : Entries Json} {stage : Stage}

/-- **The names that a stage writes**: those of the payload, if it takes no arguments, and the
id of a `$group` in any case; else the arguments. -/
theorem mem_names_rewrite_iff (h : rewrite keyword (.object entries) = .object written)
    {name : String} : name ∈ Entries.names written ↔
      (keyword.arguments = [] ∧ name ∈ Entries.names entries) ∨
        (keyword = .group ∧ name = "_id") ∨ name ∈ keyword.arguments := by
  obtain hwhole | rfl | harguments := keyword.whole_or_group_or_arguments
  · rw [rewrite_whole hwhole, Json.normalize] at h
    cases h
    rw [Json.names_normalizeEntries, hwhole.arguments_eq]
    simp [hwhole.ne_group]
  · rw [rewrite_group] at h
    cases h
    have hnone : Keyword.group.arguments = [] := rfl
    rw [Entries.names_cons, List.mem_cons, Json.names_normalizeEntries, Entries.mem_names_erase]
    by_cases hname : name = "_id" <;> simp [hname, hnone]
  · rw [rewrite_arguments harguments] at h
    cases h
    simp [Entries.names, harguments, Keyword.ne_group_of_arguments harguments]

/-- **Which names of a payload a stage keeps.** A stage that takes no arguments keeps all of
them. One that takes arguments keeps these and no others. -/
theorem mem_names_rendered_iff {document : Json} (hwf : (Json.object entries).WellFormed)
    (hstage : ofJson (.object [(keyword.symbol, .object entries)]) = .ok stage)
    (hrender : stage.render = .ok document) :
    ∃ written, document = .object [(keyword.symbol, .object written)] ∧
      ∀ name ∈ Entries.names entries,
        (name ∈ Entries.names written ↔ keyword.arguments = [] ∨ name ∈ keyword.arguments) := by
  rw [ofJson_keyword] at hstage
  have hnull : ¬ NullPlace keyword (.object entries) :=
    (render_nullFault hstage).succeeds_iff.mp ⟨document, hrender⟩
  rw [render_eq_rewrite hwf hstage hnull] at hrender
  obtain ⟨written, hwritten⟩ := exists_rewrite_object keyword entries
  rw [hwritten] at hrender
  cases hrender
  refine ⟨written, rfl, fun name hname => ?_⟩
  rw [mem_names_rewrite_iff hwritten]
  constructor
  · rintro (⟨hnone, -⟩ | ⟨rfl, -⟩ | hargument)
    · exact .inl hnone
    · exact .inl rfl
    · exact .inr hargument
  · rintro (hnone | hargument)
    · exact .inl ⟨hnone, hname⟩
    · exact .inr (.inr hargument)

/-- The payload of a `$map` whose element has a name. -/
def namedElement : Entries Json :=
  [("as", .string "x"), ("in", .string "$$x"), ("input", .string "$xs")]

theorem mem_names_rendered_iff_namedElement :
    (Json.object namedElement).WellFormed ∧
      ∃ stage document, ofJson (.object [("$map", .object namedElement)]) = .ok stage ∧
        stage.render = .ok document ∧
        ∃ written, document = .object [("$map", .object written)] ∧
          "input" ∈ Entries.names written ∧ "in" ∈ Entries.names written ∧
          "as" ∉ Entries.names written := by
  have hwf : (Json.object namedElement).WellFormed := by
    refine .object (by decide) (List.forall_mem_cons.mpr ⟨.string "x", ?_⟩)
    exact List.forall_mem_cons.mpr ⟨.string "$$x", List.forall_mem_singleton.mpr (.string "$xs")⟩
  have hstage : ofJson (.object [(Keyword.map.symbol, .object namedElement)]) =
      .ok (mapOver (.string "$xs") (.string "$$x")) := rfl
  have hrender : (mapOver (.string "$xs") (.string "$$x")).render = .ok (.object [("$map",
      .object [("input", .string "$xs"), ("in", .string "$$x")])]) := rfl
  obtain ⟨written, hwritten, hkept⟩ := mem_names_rendered_iff hwf hstage hrender
  refine ⟨hwf, _, _, hstage, hrender, written, hwritten, ?_, ?_, ?_⟩
  · exact (hkept "input" (by decide)).mpr (.inr (by decide))
  · exact (hkept "in" (by decide)).mpr (.inr (by decide))
  · exact fun h => absurd ((hkept "as" (by decide)).mp h) (by decide)

/-- A `$filter` that names its element is rendered without the name. -/
theorem filter_drops_name :
    let payload := [("input", Json.string "$xs"), ("cond", .bool true), ("as", .string "x")]
    (Json.object payload).WellFormed ∧
      ∃ stage written, ofJson (.object [("$filter", .object payload)]) = .ok stage ∧
        stage.render = .ok (.object [("$filter", .object written)]) ∧
        "as" ∈ Entries.names payload ∧ "as" ∉ Entries.names written := by
  refine ⟨.object (by decide) ?_, filterOver (.string "$xs") (.boolean true),
    [("input", .string "$xs"), ("cond", .bool true)], rfl, rfl, by decide, by decide⟩
  refine List.forall_mem_cons.mpr ⟨.string "$xs", List.forall_mem_cons.mpr ⟨.bool true, ?_⟩⟩
  exact List.forall_mem_singleton.mpr (.string "x")

end Aggregation.Stage
