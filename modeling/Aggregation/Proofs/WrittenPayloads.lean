import Aggregation.Proofs.FixedForms
import Aggregation.Proofs.Payloads

/-!
# Payloads that were written by a stage

What a stage writes is a payload that its keyword takes again, with the normal forms of the
parts that it rendered in the places where it renders them. So it is written the second time
as it stands, unless there is now a null in such a place.

## Main results

* `Stage.render_eq_rewrite` - the document of a stage that renders, computed from its payload.
* `Stage.normalPayload_rewrite` - what that document holds, part by part.
* `Stage.rewrite_rewrite` - a written payload is written as it stands.
* `Stage.nullPlace_rewrite_iff` - when a written payload has a null to render.
-/

namespace Aggregation.Stage

open Json (normalizeEntries)

/-- The payload as a stage of the keyword writes it. -/
def rewrite (keyword : Keyword) : Json → Json
  | .object entries =>
    match keyword with
    | .addFields | .project | .matching => .object (normalizeEntries entries)
    | .group => .object (("_id", (Entries.lookup? "_id" entries).getD .null) ::
        normalizeEntries (Entries.erase "_id" entries))
    | .map | .reduce | .filter => .object (keyword.arguments.map fun name =>
        (name, ((Entries.lookup? name entries).getD .null).normalize))
  | payload => payload.normalize

/-- The second payload is the first one as a stage of the keyword writes it. Each part that
the stage renders is in its normal form; so in the place of digits that spell a number beyond
all finite floats there is a null. The id of a `$group` comes first and is the same, or null
if there was none. Arguments come in their order, and other entries are left out. -/
inductive NormalPayload : Keyword → Json → Json → Prop
  | whole {keyword : Keyword} {payload written : Json} : keyword.RendersWhole →
    Json.Normal payload written → NormalPayload keyword payload written
  | group {entries written : Entries Json} :
    Json.Normal (.object (Entries.erase "_id" entries)) (.object written) →
      NormalPayload .group (.object entries)
        (.object (("_id", (Entries.lookup? "_id" entries).getD .null) :: written))
  | arguments {keyword : Keyword} {entries written : Entries Json} : keyword.arguments ≠ [] →
    Entries.names written = keyword.arguments →
    (∀ entry ∈ written, ∃ part, Entries.lookup? entry.1 entries = some part ∧
      Json.Normal part entry.2) → NormalPayload keyword (.object entries) (.object written)

variable {keyword : Keyword} {payload : Json} {entries : Entries Json} {stage : Stage}

theorem rewrite_whole (h : keyword.RendersWhole) (payload : Json) :
    rewrite keyword payload = payload.normalize := by
  cases payload with
  | object entries =>
    rw [Json.normalize]
    obtain rfl | rfl | rfl := h <;> rfl
  | null | bool b | integer n | float x | string s | array items => rfl

theorem rewrite_group (entries : Entries Json) : rewrite .group (.object entries) =
    .object (("_id", (Entries.lookup? "_id" entries).getD .null) ::
      normalizeEntries (Entries.erase "_id" entries)) := rfl

theorem rewrite_arguments (h : keyword.arguments ≠ []) (entries : Entries Json) :
    rewrite keyword (.object entries) = .object (keyword.arguments.map fun name =>
      (name, ((Entries.lookup? name entries).getD .null).normalize)) := by
  cases keyword with
  | addFields | project | matching | group => exact absurd rfl h
  | map | reduce | filter => rfl

/-- An object is rewritten to an object. -/
theorem exists_rewrite_object (keyword : Keyword) (entries : Entries Json) :
    ∃ written, rewrite keyword (.object entries) = .object written := by
  cases keyword <;> exact ⟨_, rfl⟩

/-- What is written under a keyword is a payload of that keyword. -/
theorem ofPayload_rewrite (h : ofPayload keyword payload = .ok stage) :
    ∃ stage', ofPayload keyword (rewrite keyword payload) = .ok stage' := by
  obtain ⟨rfl, -⟩ | ⟨entries, rfl, -⟩ := ofPayload_eq_ok_iff.mp h
  · exact ⟨_, ofPayload_matching _⟩
  · obtain ⟨written, hwritten⟩ := exists_rewrite_object keyword entries
    exact ⟨_, hwritten ▸ ofPayload_object keyword written⟩

theorem notMem_names_normalizeEntries_erase (name : String) (entries : Entries Json) :
    name ∉ Entries.names (normalizeEntries (Entries.erase name entries)) := by
  rw [Json.names_normalizeEntries]
  exact Entries.notMem_names_erase name entries

/-- The names of a written `$group` are distinct: the id is none of the others. -/
theorem names_group_nodup (id : Json) (h : (Entries.names entries).Nodup) :
    (Entries.names (("_id", id) :: normalizeEntries (Entries.erase "_id" entries))).Nodup := by
  rw [Entries.names_cons, List.nodup_cons]
  refine ⟨notMem_names_normalizeEntries_erase "_id" entries, ?_⟩
  rw [Json.names_normalizeEntries]
  exact Entries.names_erase_nodup h

/-- Arguments are written under their names, in order. -/
theorem names_map_arguments (part : String → Json) :
    Entries.names (keyword.arguments.map fun name => (name, part name)) = keyword.arguments := by
  rw [Entries.names, List.map_map]
  exact List.map_id keyword.arguments

/-! ## What is written -/

/-- A part of a well-formed payload is well-formed. -/
theorem Renders.wellFormed {part : Json} (h : Renders keyword payload part)
    (hwf : payload.WellFormed) : part.WellFormed := by
  cases h with
  | whole => exact hwf
  | accumulator hmem =>
    cases hwf with
    | object _ hentries => exact hentries _ hmem
  | argument _ hpart =>
    cases hwf with
    | object _ hentries => exact hentries _ (Entries.mem_of_lookup? hpart)

/-- **What a payload is written as**, part by part. -/
theorem normalPayload_rewrite (hwf : payload.WellFormed)
    (h : ofPayload keyword payload = .ok stage) (hnull : ¬ NullPlace keyword payload) :
    NormalPayload keyword payload (rewrite keyword payload) := by
  obtain ⟨hparts, hlacks⟩ := not_or.mp hnull
  push Not at hparts
  have hnormal : ∀ part, Renders keyword payload part → Json.Normal part part.normalize :=
    fun part hpart => Json.normal_normalize (hpart.wellFormed hwf) (hparts part hpart)
  obtain hwhole | ⟨entries, rfl, rfl, rfl⟩ | ⟨entries, harguments, rfl, rfl⟩ := ofPayload_cases h
  · rw [rewrite_whole hwhole]
    exact .whole hwhole (hnormal payload (.whole hwhole))
  · have hwf' : (Json.object (Entries.erase "_id" entries)).WellFormed := by
      cases hwf with
      | object hnames hentries =>
        exact .object (Entries.names_erase_nodup hnames) fun entry hmem =>
          hentries entry (Entries.mem_erase.mp hmem).1
    have hnone : ¬ (Json.object (Entries.erase "_id" entries)).HasNull := by
      rw [Json.hasNull_object_iff]
      rintro ⟨entry, hmem, hentry⟩
      exact hparts entry.2 (renders_group_iff.mpr ⟨entry, hmem, rfl⟩) hentry
    have hwritten := Json.normal_normalize hwf' hnone
    rw [Json.normalize] at hwritten
    rw [rewrite_group]
    exact .group hwritten
  · rw [rewrite_arguments harguments]
    refine .arguments harguments (names_map_arguments _)
      (List.forall_mem_map.mpr fun name hname => ?_)
    obtain ⟨part, hpart⟩ := exists_argument hlacks hname
    rw [hpart]
    exact ⟨part, rfl, hnormal part (.argument hname hpart)⟩

/-! ## Rendering writes it -/

theorem recodeArgument_of_lookup? {name : String} {part : Json}
    (h : Entries.lookup? name entries = some part) (hpart : part.recode = .ok part.normalize) :
    recodeArgument entries name =
      .ok (name, ((Entries.lookup? name entries).getD .null).normalize) := by
  rw [recodeArgument, argument, h, Option.map_some, Option.getD_some, Option.getD_some]
  change (do let value ← part.recode; return (name, value)) = _
  rw [hpart]
  rfl

/-- **The payload of a stage that renders.** -/
theorem payload_eq_rewrite (hwf : payload.WellFormed) (h : ofPayload keyword payload = .ok stage)
    (hnull : ¬ NullPlace keyword payload) : stage.payload = .ok (rewrite keyword payload) := by
  obtain ⟨hparts, hlacks⟩ := not_or.mp hnull
  push Not at hparts
  have hrecode : ∀ part, Renders keyword payload part → part.recode = .ok part.normalize :=
    fun part hpart => Json.recode_eq_normalize (hpart.wellFormed hwf) (hparts part hpart)
  obtain hwhole | ⟨entries, rfl, rfl, rfl⟩ | ⟨entries, harguments, rfl, rfl⟩ := ofPayload_cases h
  · rw [payload_whole hwhole h, rewrite_whole hwhole]
    exact hrecode payload (.whole hwhole)
  · have hwritten := Json.recodeEntries_eq fun entry hmem =>
      hrecode entry.2 (renders_group_iff.mpr ⟨entry, hmem, rfl⟩)
    have hdistinct : (Entries.names ([("_id", (Entries.lookup? "_id" entries).getD .null)] ++
        normalizeEntries (Entries.erase "_id" entries))).Nodup := by
      cases hwf with
      | object hnames _ => exact names_group_nodup _ hnames
    rw [payload_group, hwritten, Fault.ok_bind, Entries.insertAll_of_nodup hdistinct,
      rewrite_group, List.singleton_append]
  · have hwritten := Fault.mapM_of_forall_ok fun name (hname : name ∈ keyword.arguments) => by
      obtain ⟨part, hpart⟩ := exists_argument hlacks hname
      exact recodeArgument_of_lookup? hpart (hrecode part (.argument hname hpart))
    rw [payload_arguments harguments, hwritten, Fault.ok_bind, rewrite_arguments harguments]

/-- **The document of a stage that renders.** -/
theorem render_eq_rewrite (hwf : payload.WellFormed) (h : ofPayload keyword payload = .ok stage)
    (hnull : ¬ NullPlace keyword payload) :
    stage.render = .ok (.object [(keyword.symbol, rewrite keyword payload)]) := by
  rw [Stage.render, payload_eq_rewrite hwf h hnull, keyword_of_ofPayload h]
  rfl

/-! ## A written payload is written as it stands -/

/-- An argument is found under its name in what was written. -/
theorem lookup?_rewrite_arguments {name : String} (hname : name ∈ keyword.arguments)
    (entries : Entries Json) :
    Entries.lookup? name (keyword.arguments.map fun name =>
        (name, ((Entries.lookup? name entries).getD .null).normalize)) =
      some ((Entries.lookup? name entries).getD .null).normalize :=
  Entries.lookup?_map (fun name => ((Entries.lookup? name entries).getD .null).normalize) hname

theorem rewrite_rewrite (h : ofPayload keyword payload = .ok stage) :
    rewrite keyword (rewrite keyword payload) = rewrite keyword payload := by
  obtain hwhole | ⟨entries, rfl, rfl, rfl⟩ | ⟨entries, harguments, rfl, rfl⟩ := ofPayload_cases h
  · rw [rewrite_whole hwhole, rewrite_whole hwhole, Json.normalize_normalize]
  · have herase := Entries.erase_of_notMem (notMem_names_normalizeEntries_erase "_id" entries)
    rw [rewrite_group, rewrite_group, Entries.erase_cons_self, herase,
      Json.normalizeEntries_normalizeEntries fun entry _ => Json.normalize_normalize entry.2]
    rfl
  · rw [rewrite_arguments harguments, rewrite_arguments harguments]
    congr 1
    refine List.map_congr_left fun name hname => ?_
    rw [lookup?_rewrite_arguments hname, Option.getD_some, Json.normalize_normalize]

theorem not_lacks_rewrite (h : ofPayload keyword payload = .ok stage) :
    ¬ Lacks keyword (rewrite keyword payload) := by
  obtain hwhole | ⟨entries, rfl, rfl, rfl⟩ | ⟨entries, harguments, rfl, rfl⟩ := ofPayload_cases h
  · exact not_lacks hwhole.arguments_eq
  · exact not_lacks rfl
  · rw [rewrite_arguments harguments, lacks_object_iff]
    rintro ⟨name, hname, hnone⟩
    rw [lookup?_rewrite_arguments hname] at hnone
    contradiction

/-- **What a written payload has in its rendered places** are the normal forms of what the
payload had there. -/
theorem renders_rewrite_iff (h : ofPayload keyword payload = .ok stage)
    (hlacks : ¬ Lacks keyword payload) {written : Json} :
    Renders keyword (rewrite keyword payload) written ↔
      ∃ part, Renders keyword payload part ∧ part.normalize = written := by
  obtain hwhole | ⟨entries, rfl, rfl, rfl⟩ | ⟨entries, harguments, rfl, rfl⟩ := ofPayload_cases h
  · rw [rewrite_whole hwhole]
    simp only [renders_whole_iff hwhole]
    constructor
    · rintro rfl
      exact ⟨payload, rfl, rfl⟩
    · rintro ⟨_, rfl, rfl⟩
      rfl
  · have herase := Entries.erase_of_notMem (notMem_names_normalizeEntries_erase "_id" entries)
    rw [rewrite_group, renders_group_iff, Entries.erase_cons_self, herase,
      Json.normalizeEntries_eq_map]
    simp only [renders_group_iff, List.mem_map, exists_exists_and_eq_and]
  · rw [rewrite_arguments harguments, renders_arguments_iff harguments]
    simp only [renders_arguments_iff harguments]
    constructor
    · rintro ⟨name, hname, hwritten⟩
      rw [lookup?_rewrite_arguments hname] at hwritten
      obtain ⟨part, hpart⟩ := exists_argument hlacks hname
      rw [hpart, Option.getD_some] at hwritten
      exact ⟨part, ⟨name, hname, hpart⟩, Option.some.inj hwritten⟩
    · rintro ⟨part, ⟨name, hname, hpart⟩, rfl⟩
      refine ⟨name, hname, ?_⟩
      rw [lookup?_rewrite_arguments hname, hpart, Option.getD_some]

/-- A written payload has a null in a rendered place exactly if the payload had a number
there beyond all finite floats. -/
theorem nullPlace_rewrite_iff (hwf : payload.WellFormed)
    (h : ofPayload keyword payload = .ok stage) (hnull : ¬ NullPlace keyword payload) :
    NullPlace keyword (rewrite keyword payload) ↔
      ∃ part, Renders keyword payload part ∧ part.Overflows := by
  obtain ⟨hparts, hlacks⟩ := not_or.mp hnull
  push Not at hparts
  have hnormal : ∀ part, Renders keyword payload part →
      (part.normalize.HasNull ↔ part.Overflows) := by
    intro part hpart
    rw [Json.hasNull_normalize_iff (hpart.wellFormed hwf), or_iff_right (hparts part hpart)]
  rw [NullPlace, or_iff_left (not_lacks_rewrite h)]
  simp only [renders_rewrite_iff h hlacks]
  constructor
  · rintro ⟨_, ⟨part, hpart, rfl⟩, hwritten⟩
    exact ⟨part, hpart, (hnormal part hpart).mp hwritten⟩
  · rintro ⟨part, hpart, hover⟩
    exact ⟨_, ⟨part, hpart, rfl⟩, (hnormal part hpart).mpr hover⟩

theorem wellFormed_lookup? (h : ∀ entry ∈ entries, entry.2.WellFormed) (name : String) :
    ((Entries.lookup? name entries).getD .null).WellFormed := by
  cases hpart : Entries.lookup? name entries with
  | none => exact .null
  | some part => exact h _ (Entries.mem_of_lookup? hpart)

theorem wellFormed_rewrite (hwf : payload.WellFormed)
    (h : ofPayload keyword payload = .ok stage) : (rewrite keyword payload).WellFormed := by
  obtain hwhole | ⟨entries, rfl, rfl, rfl⟩ | ⟨entries, harguments, rfl, rfl⟩ := ofPayload_cases h
  · rw [rewrite_whole hwhole]
    exact Json.wellFormed_normalize hwf
  · cases hwf with
    | object hnames hentries =>
      rw [rewrite_group]
      refine .object (names_group_nodup _ hnames) (List.forall_mem_cons.mpr ⟨?_, ?_⟩)
      · exact wellFormed_lookup? hentries "_id"
      · rw [Json.normalizeEntries_eq_map]
        refine List.forall_mem_map.mpr fun entry hmem => ?_
        exact Json.wellFormed_normalize (hentries entry (Entries.mem_erase.mp hmem).1)
  · cases hwf with
    | object _ hentries =>
      rw [rewrite_arguments harguments]
      refine .object ?_ (List.forall_mem_map.mpr fun name _ => ?_)
      · rw [names_map_arguments]
        exact keyword.arguments_nodup
      · exact Json.wellFormed_normalize (wellFormed_lookup? hentries name)

end Aggregation.Stage
