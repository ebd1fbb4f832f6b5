import Aggregation.Proofs.Payloads

/-!
# Stage documents in the place of values

A stage document may stand in a pipeline, where it is decoded to a stage, or inside the payload
of another one, where it is a mapping like any other and coerced as such. Both render it alike,
with two exceptions that the stage makes: a `$map`, a `$reduce` or a `$filter` writes its
arguments in its own order, and a `$group` leaves its id as it stands and puts it first.

## Main results

* `Stage.render_whole_eq`, `Stage.render_arguments_perm`, `Stage.payload_group_eq` - the two
  renderings compared, by the kind of stage.
* `Stage.render_agrees_nested` - the comparison for every stage document.
-/

namespace Aggregation

namespace Json

/-- A document with one key is written by writing the value under it. -/
theorem recode_singleton (name : String) (value : Json) :
    recode (.object [(name, value)]) = value.recode >>= fun r => .ok (.object [(name, r)]) := by
  rw [recode_object, List.mapM_cons, List.mapM_nil, recodeEntry]
  simp only [bind_assoc]
  rfl

/-- Entries keep their names. -/
theorem names_recodeEntries {entries written : Entries Json}
    (h : entries.mapM recodeEntry = .ok written) :
    Entries.names written = Entries.names entries := by
  have hname : ∀ {entry written : String × Json}, recodeEntry entry = .ok written →
      written.1 = entry.1 := by
    intro entry written h
    obtain ⟨r, -, h⟩ := Fault.bind_eq_ok.mp h
    cases h
    rfl
  rw [Entries.names, Entries.names, ← List.forall₂_eq_eq_eq, List.forall₂_map_left_iff,
    List.forall₂_map_right_iff]
  exact (Fault.mapM_eq_ok.mp h).flip.imp fun _ _ => hname

end Json

namespace Stage

variable {keyword : Keyword} {payload : Json} {entries : Entries Json} {stage : Stage}

/-! ## Payloads that are rendered as a whole -/

/-- **A stage that renders its whole payload** is rendered like its document as a value. -/
theorem render_whole_eq (hkeyword : keyword.RendersWhole)
    (h : ofPayload keyword payload = .ok stage) :
    stage.render = (Json.object [(keyword.symbol, payload)]).recode := by
  rw [Stage.render, payload_whole hkeyword h, keyword_of_ofPayload h, Json.recode_singleton]
  rfl

/-! ## Arguments -/

/-- An argument is written like an entry; a missing one counts as null. -/
theorem recodeArgument_eq (entries : Entries Json) (name : String) :
    recodeArgument entries name =
      Json.recodeEntry (name, (Entries.lookup? name entries).getD .null) := by
  rw [recodeArgument, argument, Json.recodeEntry]
  cases Entries.lookup? name entries with
  | none => rfl
  | some part => rfl

/-- The entries of a payload, in the order of the arguments that they are. -/
theorem arguments_perm (hdistinct : (Entries.names entries).Nodup)
    (hnames : ∀ name, name ∈ Entries.names entries ↔ name ∈ keyword.arguments) :
    (keyword.arguments.map fun name =>
      (name, (Entries.lookup? name entries).getD .null)).Perm entries := by
  have hperm : keyword.arguments.Perm (Entries.names entries) :=
    (List.perm_ext_iff_of_nodup keyword.arguments_nodup hdistinct).mpr fun name =>
      (hnames name).symm
  have hentries : (Entries.names entries).map (fun name =>
      (name, (Entries.lookup? name entries).getD .null)) = entries := by
    rw [Entries.names, List.map_map]
    refine (List.map_congr_left fun entry hmem => ?_).trans (List.map_id entries)
    rw [Function.comp_apply, Entries.lookup?_of_mem hdistinct hmem, Option.getD_some]
    rfl
  exact (hperm.map _).trans (.of_eq hentries)

theorem mapM_recodeArgument (names : List String) (entries : Entries Json) :
    names.mapM (recodeArgument entries) =
      (names.map fun name => (name, (Entries.lookup? name entries).getD .null)).mapM
        Json.recodeEntry := by
  rw [List.mapM_map]
  congr 1
  funext name
  exact recodeArgument_eq entries name

/-- When the entries of a payload are the arguments and can be written, the stage writes them in
the order of the arguments. -/
theorem exists_arguments_written (harguments : keyword.arguments ≠ [])
    (hdistinct : (Entries.names entries).Nodup)
    (hnames : ∀ name, name ∈ Entries.names entries ↔ name ∈ keyword.arguments)
    {written' : Entries Json} (h : entries.mapM Json.recodeEntry = .ok written') :
    ∃ written, (ofEntries keyword entries).payload = .ok (.object written) ∧
      Entries.names written = keyword.arguments ∧ written.Perm written' := by
  obtain ⟨written, hwritten, hperm⟩ := Fault.mapM_perm (arguments_perm hdistinct hnames) h
  refine ⟨written, ?_, ?_, hperm⟩
  · rw [payload_arguments harguments, mapM_recodeArgument, hwritten, Fault.ok_bind]
  · rw [Json.names_recodeEntries hwritten, Entries.names, List.map_map]
    exact List.map_id keyword.arguments

/-- **A stage of arguments**, whose payload has these and nothing else: the stage and its
document as a value both fail, or the stage writes the same entries in its own order. -/
theorem render_arguments_perm (hwf : (Json.object entries).WellFormed)
    (harguments : keyword.arguments ≠ [])
    (hnames : ∀ name, name ∈ Entries.names entries ↔ name ∈ keyword.arguments) :
    let stage := ofEntries keyword entries
    let nested := (Json.object [(keyword.symbol, .object entries)]).recode
    (stage.render = .error (.unrenderable .null) ∧ nested = .error (.unrenderable .null)) ∨
      ∃ written written', stage.render = .ok (.object [(keyword.symbol, .object written)]) ∧
        nested = .ok (.object [(keyword.symbol, .object written')]) ∧
        Entries.names written = keyword.arguments ∧ written.Perm written' := by
  intro stage nested
  have hstage : ofPayload keyword (.object entries) = .ok stage := ofPayload_object _ _
  have hnested : nested = (Json.object entries).recode >>= fun r =>
      .ok (.object [(keyword.symbol, r)]) := Json.recode_singleton _ _
  have hdistinct : (Entries.names entries).Nodup := by
    cases hwf with
    | object hdistinct _ => exact hdistinct
  have hplace := nullPlace_arguments_iff harguments hdistinct hnames
  by_cases hnull : (Json.object entries).HasNull
  · refine .inl ⟨(render_nullFault hstage).fault (hplace.mpr hnull), ?_⟩
    rw [hnested, (Json.recode_nullFault _).fault hnull, Fault.error_bind]
  · obtain ⟨r, hr⟩ := (Json.recode_nullFault _).success hnull
    obtain ⟨written', hwritten', -⟩ := Fault.bind_eq_ok.mp (Json.recode_object entries ▸ hr)
    obtain ⟨written, hpayload, horder, hperm⟩ :=
      exists_arguments_written harguments hdistinct hnames hwritten'
    refine .inr ⟨written, written', ?_, ?_, horder, hperm⟩
    · rw [Stage.render, hpayload, keyword_of_ofPayload hstage]
      rfl
    · have hdistinct' : (Entries.names written').Nodup :=
        Json.names_recodeEntries hwritten' ▸ hdistinct
      rw [hnested, Json.recode_object, hwritten', Fault.ok_bind, Fault.ok_bind,
        Entries.collapse_of_nodup hdistinct']

/-! ## Groups -/

/-- **The payload of a `$group`** is the id as it stands, null if there is none, in front of
what the other entries give as a value; the stage fails when they do. -/
theorem payload_group_eq (entries : Entries Json) :
    ∃ outcome : Except Error (Entries Json),
      (Json.object (Entries.erase "_id" entries)).recode = outcome.map Json.object ∧
        (ofEntries .group entries).payload = outcome.map fun written =>
          .object (("_id", (Entries.lookup? "_id" entries).getD .null) :: written) := by
  refine ⟨(Entries.erase "_id" entries).mapM Json.recodeEntry >>= fun written =>
    .ok (Entries.collapse written), ?_⟩
  rw [Json.recode_object, payload_group]
  cases hwritten : (Entries.erase "_id" entries).mapM Json.recodeEntry with
  | error e => exact ⟨rfl, rfl⟩
  | ok written =>
    have hid : "_id" ∉ Entries.names written := by
      rw [Json.names_recodeEntries hwritten]
      exact Entries.notMem_names_erase "_id" entries
    rw [Fault.ok_bind, Fault.ok_bind, Fault.ok_bind, Entries.insertAll_cons_of_notMem [] hid]
    exact ⟨rfl, rfl⟩

/-! ## Every stage document -/

/-- **A stage document in a pipeline and in the place of a value.** If the stage renders its
whole payload, the two have the same outcome. If it takes arguments and the payload has these
and nothing else, both fail, or both are written with the same entries, by the stage in its own
order. A `$group` writes the id as it stands and then what the other entries are written as,
and fails exactly when they fail. -/
theorem render_agrees_nested {document : Json} (hwf : document.WellFormed)
    (h : ofJson document = .ok stage) :
    (stage.keyword.RendersWhole → stage.render = (Host.ofJson document).coerce.render) ∧
    (stage.keyword.arguments ≠ [] → ∃ entries,
      document = .object [(stage.keyword.symbol, .object entries)] ∧
      ((∀ name, name ∈ Entries.names entries ↔ name ∈ stage.keyword.arguments) →
        (stage.render = .error (.unrenderable .null) ∧
          (Host.ofJson document).coerce.render = .error (.unrenderable .null)) ∨
        ∃ written written',
          stage.render = .ok (.object [(stage.keyword.symbol, .object written)]) ∧
          (Host.ofJson document).coerce.render =
            .ok (.object [(stage.keyword.symbol, .object written')]) ∧
          Entries.names written = stage.keyword.arguments ∧ written.Perm written')) ∧
    (stage.keyword = .group → ∃ entries, ∃ outcome : Except Error (Entries Json),
      document = .object [("$group", .object entries)] ∧
      (Host.ofJson (.object (Entries.erase "_id" entries))).coerce.render =
        outcome.map Json.object ∧
      stage.render = outcome.map fun written => .object [("$group",
        .object (("_id", (Entries.lookup? "_id" entries).getD .null) :: written))]) := by
  obtain ⟨keyword, payload, rfl, hpayload⟩ := ofJson_eq_ok_iff.mp h
  have hkeyword := keyword_of_ofPayload hpayload
  rw [hkeyword]
  refine ⟨fun hwhole => render_whole_eq hwhole hpayload, fun harguments => ?_, ?_⟩
  · obtain hwhole | ⟨_, rfl, -, -⟩ | ⟨entries, -, rfl, rfl⟩ := ofPayload_cases hpayload
    · exact absurd hwhole.arguments_eq harguments
    · exact absurd rfl harguments
    · refine ⟨entries, rfl, fun hnames => ?_⟩
      cases hwf with
      | object _ hparts =>
        exact render_arguments_perm (hparts _ List.mem_cons_self) harguments hnames
  · rintro rfl
    obtain hwhole | ⟨entries, -, rfl, rfl⟩ | ⟨_, harguments, -, -⟩ := ofPayload_cases hpayload
    · exact absurd rfl hwhole.ne_group
    · obtain ⟨outcome, hnested, hgroup⟩ := payload_group_eq entries
      refine ⟨entries, outcome, rfl, hnested, ?_⟩
      rw [Stage.render, hgroup, hkeyword]
      cases outcome with
      | error e => rfl
      | ok written => rfl
    · exact absurd rfl harguments

/-- A `$filter` with its arguments the other way round. -/
def condFirst : Json :=
  .object [("$filter", .object [("cond", .bool true), ("input", .string "$xs")])]

/-- A `$group` with a null id behind an accumulator. -/
def idLast : Json := .object [("$group", .object [("n", .string "$x"), ("_id", .null)])]

theorem render_agrees_nested_reordered :
    (condFirst.WellFormed ∧ ∃ stage written written', ofJson condFirst = .ok stage ∧
      stage.render = .ok (.object [("$filter", .object written)]) ∧
      (Host.ofJson condFirst).coerce.render = .ok (.object [("$filter", .object written')]) ∧
      Entries.names written = ["input", "cond"] ∧ written.Perm written') ∧
    (idLast.WellFormed ∧ ∃ stage outcome, ofJson idLast = .ok stage ∧
      (Host.ofJson (.object [("n", .string "$x")])).coerce.render =
        Except.map Json.object outcome ∧
      stage.render = Except.map (fun written =>
        .object [("$group", .object (("_id", .null) :: written))]) outcome) := by
  have hfilter : condFirst.WellFormed := by
    refine .singleton "$filter" (.object (by decide) ?_)
    exact List.forall_mem_cons.mpr ⟨.bool true, List.forall_mem_singleton.mpr (.string "$xs")⟩
  have hgroup : idLast.WellFormed := by
    refine .singleton "$group" (.object (by decide) ?_)
    exact List.forall_mem_cons.mpr ⟨.string "$x", List.forall_mem_singleton.mpr .null⟩
  refine ⟨⟨hfilter, ?_⟩, hgroup, ?_⟩
  · have hstage : ofJson condFirst = .ok (filterOver (.string "$xs") (.boolean true)) := rfl
    have hnames : ∀ name, name ∈ ["cond", "input"] ↔ name ∈ Keyword.filter.arguments := by
      simp [Keyword.arguments, or_comm]
    obtain ⟨_, hdocument, hnested⟩ := (render_agrees_nested hfilter hstage).2.1 (by decide)
    cases hdocument
    obtain ⟨hfails, -⟩ | ⟨written, written', hwritten⟩ := hnested hnames
    · contradiction
    · exact ⟨_, written, written', hstage, hwritten⟩
  · have hstage : ofJson idLast =
        .ok (groupBy .null (Fields.ofEntries [("n", .string "$x")])) := rfl
    obtain ⟨_, outcome, hdocument, hnested, hwritten⟩ :=
      (render_agrees_nested hgroup hstage).2.2 rfl
    cases hdocument
    exact ⟨_, outcome, hstage, hnested, hwritten⟩

end Stage
end Aggregation
