import Aggregation.Proofs.Documents
import Aggregation.Proofs.NullFaults

/-!
# What a stage renders of its payload

An `$addFields`, a `$project` and a `$match` render the whole payload. A `$group` renders
all entries but the id, which stands as it is. A `$map`, a `$reduce` and a `$filter` render
their arguments and nothing else, and one that is missing counts as null.

## Main results

* `Stage.payload_whole`, `Stage.payload_group`, `Stage.payload_arguments` - the written
  payload, by the kind of stage.
* `Stage.render_nullFault` - a stage fails to render exactly on a null in such a place.
-/

namespace Aggregation

namespace Keyword

/-- The stages whose payload is rendered as a whole. -/
def RendersWhole (keyword : Keyword) : Prop :=
  keyword = .addFields ∨ keyword = .project ∨ keyword = .matching

/-- The arguments that the stage takes, in the order in which it writes them. -/
def arguments : Keyword → List String
  | .map => ["input", "in"]
  | .reduce => ["input", "initialValue", "in"]
  | .filter => ["input", "cond"]
  | _ => []

theorem arguments_nodup (keyword : Keyword) : keyword.arguments.Nodup := by
  cases keyword <;> decide

/-- The three ways in which a stage treats its payload. -/
theorem whole_or_group_or_arguments (keyword : Keyword) :
    keyword.RendersWhole ∨ keyword = .group ∨ keyword.arguments ≠ [] := by
  cases keyword <;> simp [RendersWhole, arguments]

theorem RendersWhole.arguments_eq {keyword : Keyword} (h : keyword.RendersWhole) :
    keyword.arguments = [] := by
  obtain rfl | rfl | rfl := h <;> rfl

theorem RendersWhole.ne_group {keyword : Keyword} (h : keyword.RendersWhole) :
    keyword ≠ .group := by
  obtain rfl | rfl | rfl := h <;> simp

theorem ne_group_of_arguments {keyword : Keyword} (h : keyword.arguments ≠ []) :
    keyword ≠ .group := by
  rintro rfl
  exact h rfl

end Keyword

namespace Stage

/-- The part stands in the payload where the stage renders it. -/
inductive Renders : Keyword → Json → Json → Prop
  | whole {keyword : Keyword} {payload : Json} : keyword.RendersWhole →
    Renders keyword payload payload
  | accumulator {entries : Entries Json} {entry : String × Json} : entry ∈ entries →
    entry.1 ≠ "_id" → Renders .group (.object entries) entry.2
  | argument {keyword : Keyword} {entries : Entries Json} {name : String} {part : Json} :
    name ∈ keyword.arguments → Entries.lookup? name entries = some part →
      Renders keyword (.object entries) part

/-- An argument of the stage is missing from its payload. -/
def Lacks (keyword : Keyword) (payload : Json) : Prop :=
  ∃ entries, payload = .object entries ∧
    ∃ name ∈ keyword.arguments, name ∉ Entries.names entries

/-- Where the stage renders its payload there is a null, or nothing where an argument should
be. -/
def NullPlace (keyword : Keyword) (payload : Json) : Prop :=
  (∃ part, Renders keyword payload part ∧ part.HasNull) ∨ Lacks keyword payload

variable {keyword : Keyword} {payload : Json} {entries : Entries Json} {stage : Stage}

/-- A payload that a keyword takes is rendered as a whole, or it is an object: of a `$group`,
or of arguments. -/
theorem ofPayload_cases (h : ofPayload keyword payload = .ok stage) :
    keyword.RendersWhole ∨
      (∃ entries, keyword = .group ∧ payload = .object entries ∧
        stage = ofEntries .group entries) ∨
      (∃ entries, keyword.arguments ≠ [] ∧ payload = .object entries ∧
        stage = ofEntries keyword entries) := by
  obtain ⟨rfl, -⟩ | ⟨entries, rfl, rfl⟩ := ofPayload_eq_ok_iff.mp h
  · exact .inl (.inr (.inr rfl))
  · obtain hwhole | rfl | harguments := keyword.whole_or_group_or_arguments
    · exact .inl hwhole
    · exact .inr (.inl ⟨entries, rfl, rfl, rfl⟩)
    · exact .inr (.inr ⟨entries, harguments, rfl, rfl⟩)

/-! ## Places by the kind of stage -/

theorem renders_whole_iff (h : keyword.RendersWhole) {part : Json} :
    Renders keyword payload part ↔ part = payload := by
  constructor
  · rintro (_ | _ | ⟨hname, -⟩)
    · rfl
    · exact absurd rfl h.ne_group
    · rw [h.arguments_eq] at hname
      contradiction
  · rintro rfl
    exact .whole h

theorem renders_group_iff {part : Json} : Renders .group (.object entries) part ↔
    ∃ entry ∈ Entries.erase "_id" entries, entry.2 = part := by
  simp only [Entries.mem_erase]
  constructor
  · rintro (h | ⟨hmem, hname⟩ | ⟨hname, -⟩)
    · exact absurd rfl h.ne_group
    · exact ⟨_, ⟨hmem, hname⟩, rfl⟩
    · contradiction
  · rintro ⟨entry, ⟨hmem, hname⟩, rfl⟩
    exact .accumulator hmem hname

theorem renders_arguments_iff (h : keyword.arguments ≠ []) {part : Json} :
    Renders keyword (.object entries) part ↔
      ∃ name ∈ keyword.arguments, Entries.lookup? name entries = some part := by
  constructor
  · rintro (hwhole | _ | ⟨hname, hpart⟩)
    · exact absurd hwhole.arguments_eq h
    · exact absurd rfl h
    · exact ⟨_, hname, hpart⟩
  · rintro ⟨name, hname, hpart⟩
    exact .argument hname hpart

theorem lacks_object_iff : Lacks keyword (.object entries) ↔
    ∃ name ∈ keyword.arguments, Entries.lookup? name entries = none := by
  simp only [Entries.lookup?_eq_none_iff]
  constructor
  · rintro ⟨_, ⟨⟩, h⟩
    exact h
  · exact fun h => ⟨entries, rfl, h⟩

/-- No argument is missing, so each is found. -/
theorem exists_argument (h : ¬ Lacks keyword (.object entries)) {name : String}
    (hname : name ∈ keyword.arguments) : ∃ part, Entries.lookup? name entries = some part := by
  cases hpart : Entries.lookup? name entries with
  | none => exact absurd (lacks_object_iff.mpr ⟨name, hname, hpart⟩) h
  | some part => exact ⟨part, rfl⟩

theorem not_lacks (h : keyword.arguments = []) : ¬ Lacks keyword payload := by
  rintro ⟨_, -, name, hname, -⟩
  rw [h] at hname
  contradiction

theorem nullPlace_whole_iff (h : keyword.RendersWhole) :
    NullPlace keyword payload ↔ payload.HasNull := by
  rw [NullPlace, or_iff_left (not_lacks h.arguments_eq)]
  simp only [renders_whole_iff h, exists_eq_left]

/-- Where the names of a payload are the arguments, a null may stand in none of its entries. -/
theorem nullPlace_arguments_iff (h : keyword.arguments ≠ [])
    (hdistinct : (Entries.names entries).Nodup)
    (hnames : ∀ name, name ∈ Entries.names entries ↔ name ∈ keyword.arguments) :
    NullPlace keyword (.object entries) ↔ (Json.object entries).HasNull := by
  have hlacks : ¬ Lacks keyword (.object entries) := by
    rw [lacks_object_iff]
    rintro ⟨name, hname, hnone⟩
    exact Entries.lookup?_eq_none_iff.mp hnone ((hnames name).mpr hname)
  rw [NullPlace, or_iff_left hlacks, Json.hasNull_object_iff]
  simp only [renders_arguments_iff h]
  constructor
  · rintro ⟨part, ⟨name, -, hpart⟩, hnull⟩
    exact ⟨(name, part), Entries.mem_of_lookup? hpart, hnull⟩
  · rintro ⟨entry, hmem, hnull⟩
    have hname := (hnames entry.1).mp (Entries.mem_names_of_mem hmem)
    exact ⟨entry.2, ⟨entry.1, hname, Entries.lookup?_of_mem hdistinct hmem⟩, hnull⟩

/-! ## The written payload -/

/-- An argument as it is written, with its name. -/
def recodeArgument (entries : Entries Json) (name : String) : Except Error (String × Json) := do
  let value ← (argument name entries).coerce.render
  return (name, value)

theorem renderEntries_payloadFields (entries : Entries Json) :
    Coerced.renderEntries (payloadFields entries) = entries.mapM Json.recodeEntry := by
  rw [payloadFields, Fields.ofEntries, Coerced.renderEntries_eq_mapM,
    Host.coerceEntries_eq_map, Host.ofEntries_eq_map, List.map_map, List.mapM_map]
  rfl

/-- The fields of a payload without an id have none either. -/
theorem erase_payloadFields (name : String) (entries : Entries Json) :
    Entries.erase name (payloadFields (Entries.erase name entries)) =
      payloadFields (Entries.erase name entries) := by
  apply Entries.erase_of_notMem
  have hnames : Entries.names (payloadFields (Entries.erase name entries)) =
      Entries.names (Entries.erase name entries) := by
    simp [payloadFields, Fields.ofEntries, Entries.names, Function.comp_def]
  rw [hnames]
  exact Entries.notMem_names_erase name entries

/-- **A payload that is rendered as a whole** is written like any JSON value. -/
theorem payload_whole (hkeyword : keyword.RendersWhole)
    (h : ofPayload keyword payload = .ok stage) : stage.payload = payload.recode := by
  obtain ⟨rfl, rfl⟩ | ⟨entries, rfl, rfl⟩ := ofPayload_eq_ok_iff.mp h
  · rw [ofQuery, Stage.payload, Json.recode]
  · obtain rfl | rfl | rfl := hkeyword
    · rw [ofEntries, Stage.payload, renderEntries_payloadFields, Json.recode_object]
      rfl
    · rw [ofEntries, Stage.payload, renderEntries_payloadFields, Json.recode_object]
      rfl
    · rw [ofEntries, ofQuery, Stage.payload, Json.recode]

/-- **The payload of a `$group`**: the id, null if there is none, then the other entries. -/
theorem payload_group (entries : Entries Json) : (ofEntries .group entries).payload =
    (Entries.erase "_id" entries).mapM Json.recodeEntry >>= fun written => .ok (.object
      (Entries.insertAll [("_id", (Entries.lookup? "_id" entries).getD .null)] written)) := by
  rw [ofEntries, groupBy, erase_payloadFields, Stage.payload, renderEntries_payloadFields]
  simp only [Entries.insertAll_collapse]
  rfl

/-- **A payload of arguments**: each of them under its name, in their own order. -/
theorem payload_arguments (h : keyword.arguments ≠ []) (entries : Entries Json) :
    (ofEntries keyword entries).payload =
      keyword.arguments.mapM (recodeArgument entries) >>= fun written =>
        .ok (.object written) := by
  cases keyword with
  | addFields | project | matching | group => exact absurd rfl h
  | map =>
    rw [ofEntries, mapOver, Stage.payload]
    simp only [Keyword.arguments, recodeArgument, List.mapM_cons, List.mapM_nil, bind_assoc,
      pure_bind]
    rfl
  | reduce =>
    rw [ofEntries, reduceOver, Stage.payload]
    simp only [Keyword.arguments, recodeArgument, List.mapM_cons, List.mapM_nil, bind_assoc,
      pure_bind]
    rfl
  | filter =>
    rw [ofEntries, filterOver, Stage.payload]
    simp only [Keyword.arguments, recodeArgument, List.mapM_cons, List.mapM_nil, bind_assoc,
      pure_bind]
    rfl

/-! ## Faults -/

/-- An argument that is missing, or has a null in it. -/
theorem recodeArgument_nullFault (entries : Entries Json) (name : String) :
    NullFault (recodeArgument entries name)
      (Entries.lookup? name entries = none ∨
        ∃ part, Entries.lookup? name entries = some part ∧ part.HasNull) := by
  rw [recodeArgument, argument]
  cases Entries.lookup? name entries with
  | none =>
    have hnull : Host.null.coerce.render = .error (.unrenderable .null) := by
      simp [Host.coerce, Coerced.render, Host.type]
    rw [Option.map_none, Option.getD_none, hnull]
    exact NullFault.of_null.congr (by simp)
  | some part =>
    exact (part.recode_nullFault.map (name, ·)).congr (by simp)

/-- **A stage fails to render exactly on a null in a place that it renders.** -/
theorem render_nullFault (h : ofPayload keyword payload = .ok stage) :
    NullFault stage.render (NullPlace keyword payload) := by
  rw [Stage.render]
  refine NullFault.map _ ?_
  obtain hwhole | ⟨entries, rfl, rfl, rfl⟩ | ⟨entries, harguments, rfl, rfl⟩ := ofPayload_cases h
  · rw [payload_whole hwhole h]
    exact payload.recode_nullFault.congr (nullPlace_whole_iff hwhole).symm
  · rw [payload_group]
    refine ((Json.recodeEntries_nullFault _).map _).congr ?_
    have hlacks : ¬ Lacks .group (.object entries) := not_lacks rfl
    simp only [NullPlace, renders_group_iff, hlacks, or_false]
    constructor
    · rintro ⟨entry, hmem, hnull⟩
      exact ⟨entry.2, ⟨entry, hmem, rfl⟩, hnull⟩
    · rintro ⟨_, ⟨entry, hmem, rfl⟩, hnull⟩
      exact ⟨entry, hmem, hnull⟩
  · rw [payload_arguments harguments]
    have hwritten := NullFault.mapM fun name (_ : name ∈ keyword.arguments) =>
      recodeArgument_nullFault entries name
    refine (hwritten.map _).congr ?_
    simp only [NullPlace, renders_arguments_iff harguments, lacks_object_iff]
    constructor
    · rintro ⟨name, hname, hlacks | ⟨part, hpart, hnull⟩⟩
      · exact .inr ⟨name, hname, hlacks⟩
      · exact .inl ⟨part, ⟨name, hname, hpart⟩, hnull⟩
    · rintro (⟨part, ⟨name, hname, hpart⟩, hnull⟩ | ⟨name, hname, hlacks⟩)
      · exact ⟨name, hname, .inr ⟨part, hpart, hnull⟩⟩
      · exact ⟨name, hname, .inl hlacks⟩

end Stage
end Aggregation
