import Aggregation.Value.Builders
import Aggregation.Proofs.Payloads

/-!
# The parts of a host value

A host value is a leaf, raw JSON, null, or put together from other host values: as a sequence
or a mapping, by a builder of typed values, or as a stage. It is rendered by rendering these
parts in order and writing what they gave. So it has no wire form exactly if a null stands in
it where parts are rendered. A null inside raw JSON is no part, and neither is an accumulator
that a `$group` drops.

## Main definitions

* `Host.MadeOf` - which parts of a host value are rendered with it.
* `Host.Built` - the host values that callers can supply.
* `Host.HasNull` - a null stands among the rendered parts, at whatever depth.

## Main results

* `Host.MadeOf.writtenFrom` - rendering is a function of the rendered parts.
* `Host.Built.wellFormed` - what is rendered is a well-formed JSON value.
* `Host.built_ofJson`, `Host.Built.combine`, `Host.Built.ofCoerced_coerce` - host values from
  JSON, from operators and from coercion.
* `Host.render_fails_iff` - which host values have no wire form.
-/

namespace Aggregation

/-- The typed values without parts, raw documents apart. -/
def Value.isLeaf : Value → Bool
  | .boolean _ | .number _ | .integer _ | .string _ | .date _ => true
  | .tagged .. | .document _ | .map _ | .expression .. => false

namespace Host

/-- The host values without parts, raw documents and null apart. -/
def isLeaf : Host → Bool
  | .value v => v.isLeaf
  | .boolean _ | .integer _ | .unsigned _ | .float _ | .decimal _ | .string _ | .date _ => true
  | .sequence _ | .mapping _ | .stage _ | .null => false

/-- The host value is put together from these parts, all of which are rendered with it. A name
that is repeated does not make an entry less of a part. The parts of a `$group` are the
accumulators that are not named `_id`; its id is raw JSON. -/
inductive MadeOf : Host → List Host → Prop
  | leaf {host : Host} : host.isLeaf = true → MadeOf host []
  | document {entries : Entries Json} : (Json.object entries).WellFormed →
    MadeOf (.value (.document entries)) []
  | sequence (items : List Host) : MadeOf (.sequence items) items
  | mapping (entries : Entries Host) : MadeOf (.mapping entries) (entries.map Prod.snd)
  | array (items : List Host) : MadeOf (.value (.ofItems items)) items
  | map (entries : Entries Host) : MadeOf (.value (.ofEntries entries)) (entries.map Prod.snd)
  | expression (operator : Operator) (operands : List Host) :
    MadeOf (.value (.expression operator (coerceItems operands))) operands
  | addFields (fields : Entries Host) :
    MadeOf (.stage (.addFields (Fields.ofEntries fields))) (fields.map Prod.snd)
  | project (fields : Entries Host) :
    MadeOf (.stage (.project (Fields.ofEntries fields))) (fields.map Prod.snd)
  | query (query : Host) : MadeOf (.stage (.ofQuery query)) [query]
  | group {id : Json} (accumulators : Entries Host) : id.WellFormed →
    MadeOf (.stage (.groupBy id (Fields.ofEntries accumulators)))
      ((Entries.erase "_id" accumulators).map Prod.snd)
  | mapOver (input body : Host) : MadeOf (.stage (.mapOver input body)) [input, body]
  | reduceOver (input initialValue body : Host) :
    MadeOf (.stage (.reduceOver input initialValue body)) [input, initialValue, body]
  | filterOver (input condition : Host) :
    MadeOf (.stage (.filterOver input condition)) [input, condition]

/-- A host value that callers can supply: null, or put together from such values. So whatever
is coerced in it was coerced from a host value, and JSON that is raw in it is well-formed. -/
inductive Built : Host → Prop
  | null : Built .null
  | madeOf {host : Host} {parts : List Host} : host.MadeOf parts →
    (∀ part ∈ parts, Built part) → Built host

/-- A null stands where the host value is rendered: it is null, or one of its parts has one. -/
inductive HasNull : Host → Prop
  | null : HasNull .null
  | part {host part : Host} {parts : List Host} : host.MadeOf parts → part ∈ parts →
    HasNull part → HasNull host

/-- The wire form of a host value. -/
def render (host : Host) : Except Error Json := host.coerce.render

theorem render_of_typed {host : Host} {v : Value} (h : host.coerce = .typed v) :
    host.render = v.render := by
  rw [render, h, Coerced.render_typed]

@[simp] theorem render_value (v : Value) : (Host.value v).render = v.render :=
  render_of_typed (by rw [coerce])

@[simp] theorem render_stage (s : Stage) : (Host.stage s).render = s.render := by
  rw [render, coerce, Coerced.render_stage]

@[simp] theorem render_null : Host.null.render = .error (.unrenderable .null) := by
  rw [render, coerce, Coerced.render]
  · rfl
  · simp

end Host

/-! ## Leaves -/

theorem Number.wellFormed_render (n : Number) : n.render.WellFormed := by
  cases n with
  | integral n => exact .integer (Word.holds_toInt n)
  | unsigned n => exact .integer (Word.holds_toNat n)
  | floating x =>
    rw [Number.render]
    split
    · rename_i hfinite
      exact .float hfinite
    · exact .null

theorem Instant.wellFormed_render (i : Instant) : i.render.WellFormed :=
  .singleton "$date" (.string i.toTimestamp)

namespace Value

theorem isLeaf_ofUInt64 (n : UInt64) : (ofUInt64 n).isLeaf = true := by
  rw [ofUInt64]
  cases Word.signed? n.toNat <;> rfl

theorem isLeaf_ofString (s : String) : (ofString s).isLeaf = true := by
  rw [ofString]
  split <;> rfl

/-- A leaf is rendered. -/
theorem exists_render_leaf {v : Value} (h : v.isLeaf = true) :
    ∃ r, r.WellFormed ∧ v.render = .ok r := by
  cases v with
  | boolean b => exact ⟨_, .bool b, render_boolean b⟩
  | number n => exact ⟨_, n.wellFormed_render, render_number n⟩
  | integer n => exact ⟨_, .integer (Word.holds_toInt n), render_integer n⟩
  | string s => exact ⟨_, .string s, render_string s⟩
  | date i => exact ⟨_, i.wellFormed_render, by rw [render]⟩
  | tagged | document | map | expression => contradiction

end Value

namespace Host

/-- A leaf is coerced to a typed leaf. -/
theorem exists_coerce_leaf {host : Host} (h : host.isLeaf = true) :
    ∃ v, v.isLeaf = true ∧ host.coerce = .typed v := by
  cases host with
  | value v => exact ⟨v, h, by rw [coerce]⟩
  | boolean | integer | float | decimal | date => exact ⟨_, rfl, by rw [coerce]⟩
  | unsigned n => exact ⟨_, Value.isLeaf_ofUInt64 n, by rw [coerce]⟩
  | string s => exact ⟨_, Value.isLeaf_ofString s, by rw [coerce]⟩
  | sequence | mapping | stage | null => contradiction

/-! ## Rendering parts -/

/-- The result is written from the wire forms of the parts, which are rendered in order. What is
written from well-formed values is well-formed. -/
def WrittenFrom (result : Except Error Json) (parts : List Host) : Prop :=
  ∃ write : List Json → Json,
    (∀ written, (∀ r ∈ written, r.WellFormed) → (write written).WellFormed) ∧
      result = parts.mapM render >>= fun written => .ok (write written)

namespace WrittenFrom

variable {host : Host} {parts : List Host} {result : Except Error Json}

theorem of_ok {r : Json} (h : r.WellFormed) : WrittenFrom (.ok r) [] :=
  ⟨fun _ => r, fun _ _ => h, rfl⟩

/-- What is done with the written value adds no part. -/
theorem map {f : Json → Json} (h : WrittenFrom result parts)
    (hf : ∀ r, r.WellFormed → (f r).WellFormed) :
    WrittenFrom (result >>= fun r => .ok (f r)) parts := by
  obtain ⟨write, hwrite, rfl⟩ := h
  refine ⟨fun written => f (write written), fun written hwritten => ?_, ?_⟩
  · exact hf _ (hwrite written hwritten)
  · rw [bind_assoc]
    rfl

theorem document (keyword : Keyword) (h : WrittenFrom result parts) :
    WrittenFrom (result >>= fun payload => .ok (keyword.document payload)) parts :=
  h.map fun _ hpayload => .singleton keyword.symbol hpayload

/-- A single part. -/
theorem part (host : Host) : WrittenFrom host.render [host] := by
  refine ⟨fun written => written.headD .null, fun written hwritten => ?_, ?_⟩
  · cases written with
    | nil => exact .null
    | cons r written => exact hwritten r List.mem_cons_self
  · rw [List.mapM_cons, List.mapM_nil]
    cases host.render <;> rfl

theorem items (items : List Host) :
    WrittenFrom (Coerced.renderItems (coerceItems items) >>= fun written => .ok (.array written))
      items := by
  refine ⟨.array, fun _ => .array, ?_⟩
  rw [coerceItems_eq_map, Coerced.renderItems_eq_mapM, List.mapM_map]
  rfl

/-- Entries are rendered by rendering their values; each keeps its name. -/
theorem renderEntries_coerceEntries (entries : Entries Host) :
    Coerced.renderEntries (coerceEntries entries) =
      (entries.map Prod.snd).mapM render >>= fun written =>
        .ok ((Entries.names entries).zip written) := by
  induction entries with
  | nil =>
    rw [coerceEntries, Coerced.renderEntries]
    rfl
  | cons entry entries ih =>
    rw [coerceEntries, Coerced.renderEntries, ih, List.map_cons, List.mapM_cons]
    simp only [bind_assoc]
    rfl

theorem values_wellFormed {names : List String} {written : List Json}
    (h : ∀ r ∈ written, r.WellFormed) : ∀ entry ∈ names.zip written, entry.2.WellFormed :=
  fun _ hmem => h _ (List.of_mem_zip hmem).2

/-- Entries that are written into a document. -/
theorem entries {start : Entries Json} (hstart : (Json.object start).WellFormed)
    (entries : Entries Host) :
    WrittenFrom (Coerced.renderEntries (coerceEntries entries) >>= fun written =>
      .ok (.object (Entries.insertAll start written))) (entries.map Prod.snd) := by
  refine ⟨fun written => .object (Entries.insertAll start ((Entries.names entries).zip written)),
    fun _ hwritten => hstart.insertAll (values_wellFormed hwritten), ?_⟩
  rw [renderEntries_coerceEntries, bind_assoc]
  rfl

/-- Arguments that are written under their names. -/
theorem arguments (keyword : Keyword) (parts : List Host) :
    WrittenFrom (parts.mapM render >>= fun written =>
      .ok (.object (keyword.arguments.zip written))) parts := by
  refine ⟨fun written => .object (keyword.arguments.zip written), fun _ hwritten => ?_, rfl⟩
  refine .object ?_ (values_wellFormed hwritten)
  exact keyword.arguments_nodup.sublist (Entries.names_zip_sublist _ _)

end WrittenFrom

/-- Erasing a name commutes with coercion. -/
theorem erase_coerceEntries (name : String) (entries : Entries Host) :
    Entries.erase name (coerceEntries entries) = coerceEntries (Entries.erase name entries) := by
  rw [coerceEntries_eq_map, coerceEntries_eq_map, Entries.erase, Entries.erase, List.filter_map]
  rfl

theorem payload_mapOver (input body : Host) : (Stage.mapOver input body).payload =
    [input, body].mapM render >>= fun written =>
      .ok (.object (Keyword.map.arguments.zip written)) := by
  rw [Stage.mapOver, Stage.payload]
  simp only [List.mapM_cons, List.mapM_nil, bind_assoc]
  rfl

theorem payload_reduceOver (input initialValue body : Host) :
    (Stage.reduceOver input initialValue body).payload =
      [input, initialValue, body].mapM render >>= fun written =>
        .ok (.object (Keyword.reduce.arguments.zip written)) := by
  rw [Stage.reduceOver, Stage.payload]
  simp only [List.mapM_cons, List.mapM_nil, bind_assoc]
  rfl

theorem payload_filterOver (input condition : Host) :
    (Stage.filterOver input condition).payload =
      [input, condition].mapM render >>= fun written =>
        .ok (.object (Keyword.filter.arguments.zip written)) := by
  rw [Stage.filterOver, Stage.payload]
  simp only [List.mapM_cons, List.mapM_nil, bind_assoc]
  rfl

/-- **Rendering is a function of the rendered parts.** -/
theorem MadeOf.writtenFrom {host : Host} {parts : List Host} (h : host.MadeOf parts) :
    WrittenFrom host.render parts := by
  cases h with
  | leaf hleaf =>
    obtain ⟨v, hv, hcoerce⟩ := exists_coerce_leaf hleaf
    obtain ⟨r, hr, hrender⟩ := v.exists_render_leaf hv
    rw [render_of_typed hcoerce, hrender]
    exact .of_ok hr
  | document hraw =>
    rw [render_value, Value.render]
    exact .of_ok hraw
  | sequence =>
    rw [render, coerce, Coerced.render_typed, Value.render]
    exact .items parts
  | mapping entries =>
    rw [render, coerce, Coerced.render_typed, Value.render]
    exact .entries .empty entries
  | array =>
    rw [render_value, Value.ofItems, Value.render]
    exact .items parts
  | map entries =>
    rw [render_value, Value.ofEntries, Value.render]
    exact .entries .empty entries
  | expression operator =>
    rw [render_value, Value.render]
    have hwritten := (WrittenFrom.items parts).map fun _ h => .singleton operator.symbol h
    rw [bind_assoc] at hwritten
    exact hwritten
  | addFields fields =>
    rw [render_stage, Stage.render, Stage.payload]
    exact (WrittenFrom.entries .empty fields).document .addFields
  | project fields =>
    rw [render_stage, Stage.render, Stage.payload]
    exact (WrittenFrom.entries .empty fields).document .project
  | query query =>
    rw [render_stage, Stage.render, Stage.ofQuery, Stage.payload]
    exact (WrittenFrom.part query).document .matching
  | group accumulators hid =>
    rw [render_stage, Stage.render, Stage.groupBy, Fields.ofEntries, erase_coerceEntries,
      Stage.payload]
    simp only [Entries.insertAll_collapse]
    exact (WrittenFrom.entries (.singleton "_id" hid) _).document .group
  | mapOver input body =>
    rw [render_stage, Stage.render, payload_mapOver]
    exact (WrittenFrom.arguments .map _).document .map
  | reduceOver input initialValue body =>
    rw [render_stage, Stage.render, payload_reduceOver]
    exact (WrittenFrom.arguments .reduce _).document .reduce
  | filterOver input condition =>
    rw [render_stage, Stage.render, payload_filterOver]
    exact (WrittenFrom.arguments .filter _).document .filter

/-! ## One step -/

section Step
variable {host part : Host} {parts : List Host}

/-- A part that fails makes the whole fail, wherever it stands. -/
theorem MadeOf.fails_of_part (h : host.MadeOf parts) (hmem : part ∈ parts)
    (hpart : ∃ e, part.render = .error e) : ∃ e, host.render = .error e := by
  obtain ⟨write, -, hrender⟩ := h.writtenFrom
  obtain ⟨e, he⟩ := Fault.mapM_fails_iff.mpr ⟨part, hmem, hpart⟩
  exact ⟨e, by rw [hrender, he, Fault.error_bind]⟩

/-- The fault of the whole is that of a part. -/
theorem MadeOf.exists_part_of_error (h : host.MadeOf parts) {e : Error}
    (he : host.render = .error e) : ∃ part ∈ parts, part.render = .error e := by
  obtain ⟨write, -, hrender⟩ := h.writtenFrom
  rw [hrender, Fault.bind_eq_error] at he
  obtain he | ⟨_, -, he⟩ := he
  · obtain ⟨before, part, after, rfl, -, hpart⟩ := Fault.mapM_eq_error.mp he
    exact ⟨part, by simp, hpart⟩
  · contradiction

/-- The whole is well-formed when its parts are. -/
theorem MadeOf.wellFormed (h : host.MadeOf parts) {r : Json} (hr : host.render = .ok r)
    (hparts : ∀ part ∈ parts, ∀ r, part.render = .ok r → r.WellFormed) : r.WellFormed := by
  obtain ⟨write, hwrite, hrender⟩ := h.writtenFrom
  rw [hrender, Fault.bind_eq_ok] at hr
  obtain ⟨written, hwritten, hr⟩ := hr
  cases hr
  refine hwrite written fun r hmem => ?_
  obtain ⟨part, hpart, hr⟩ :=
    Fault.exists_mem_of_forall₂ (Fault.mapM_eq_ok.mp hwritten).flip hmem
  exact hparts part hpart r hr

end Step

/-! ## Whole host values -/

variable {host : Host}

/-- A null in a rendered place is a fault, also where a later entry takes the name. -/
theorem HasNull.fails (h : host.HasNull) : ∃ e, host.render = .error e := by
  induction h with
  | null => exact ⟨_, render_null⟩
  | part hparts hmem _ ih => exact hparts.fails_of_part hmem ih

/-- There is no other fault: whatever fails, fails on a null. -/
theorem Built.hasNull_of_error (h : host.Built) {e : Error} (he : host.render = .error e) :
    host.HasNull ∧ e = .unrenderable .null := by
  induction h with
  | null =>
    rw [render_null] at he
    exact ⟨.null, (Except.error.inj he).symm⟩
  | madeOf hparts _ ih =>
    obtain ⟨part, hmem, hpart⟩ := hparts.exists_part_of_error he
    obtain ⟨hnull, rfl⟩ := ih part hmem hpart
    exact ⟨.part hparts hmem hnull, rfl⟩

/-- **What is rendered is a well-formed JSON value.** -/
theorem Built.wellFormed (h : host.Built) {r : Json} (hr : host.render = .ok r) :
    r.WellFormed := by
  induction h generalizing r with
  | null =>
    rw [render_null] at hr
    contradiction
  | madeOf hparts _ ih => exact hparts.wellFormed hr fun part hmem _ hr => ih part hmem hr

/-! ## Where host values come from -/

theorem isLeaf_ofInteger (n : ℤ) : (ofInteger n).isLeaf = true := by
  rw [ofInteger]
  split <;> rfl

/-- Fields that are inserted one after the other are those of the entries, in order. -/
theorem foldl_insert_eq (entries : Entries Host) (fields : Fields) :
    entries.foldl (fun fields entry => fields.insert entry.1 entry.2) fields =
      fields ++ Fields.ofEntries entries := by
  induction entries generalizing fields with
  | nil => rw [List.foldl_nil, Fields.ofEntries, coerceEntries, List.append_nil]
  | cons entry entries ih =>
    rw [List.foldl_cons, ih, Fields.insert, List.append_assoc, List.singleton_append]
    rfl

/-- Every JSON value can be supplied. -/
theorem built_ofJson (j : Json) : (ofJson j).Built := by
  have hleaf : ∀ {host : Host}, host.isLeaf = true → host.Built :=
    fun h => .madeOf (.leaf h) fun _ hmem => absurd hmem List.not_mem_nil
  induction j with
  | null => exact .null
  | bool | float | string => exact hleaf rfl
  | integer n => exact hleaf (isLeaf_ofInteger n)
  | array items ih =>
    rw [ofJson, ofItems_eq_map]
    exact .madeOf (.sequence _) (List.forall_mem_map.mpr ih)
  | object entries ih =>
    rw [ofJson, ofEntries_eq_map]
    refine .madeOf (.mapping _) ?_
    rw [List.map_map]
    exact List.forall_mem_map.mpr ih

/-- In a host value from JSON all nulls stand where it is rendered. -/
theorem hasNull_ofJson_iff (j : Json) : (ofJson j).HasNull ↔ j.HasNull := by
  constructor
  · intro h
    by_contra hnone
    obtain ⟨e, he⟩ := h.fails
    obtain ⟨r, hr⟩ := j.recode_nullFault.success hnone
    rw [render, ← Json.recode, hr] at he
    contradiction
  · intro h
    exact ((built_ofJson j).hasNull_of_error (j.recode_nullFault.fault h)).1

/-- So can what an operator makes of a value and a host value. -/
theorem Built.combine (operator : Operator) {left : Value} {right : Host}
    (hleft : (Host.value left).Built) (hright : right.Built) :
    (Host.value (Value.combine operator left right)).Built := by
  have hmade := MadeOf.expression operator [.value left, right]
  rw [coerceItems_eq_map, List.map_cons, coerce] at hmade
  exact .madeOf hmade (List.forall_mem_cons.mpr ⟨hleft, List.forall_mem_singleton.mpr hright⟩)

/-- What was coerced can be supplied again. -/
theorem Built.ofCoerced_coerce (h : host.Built) : (Host.ofCoerced host.coerce).Built := by
  cases h with
  | null =>
    rw [coerce]
    exact .null
  | madeOf hmade hparts =>
    have hbuilt := Built.madeOf hmade hparts
    cases hmade with
    | leaf hleaf =>
      obtain ⟨v, hv, hcoerce⟩ := exists_coerce_leaf hleaf
      rw [hcoerce]
      exact .madeOf (.leaf hv) hparts
    | sequence =>
      rw [coerce]
      exact .madeOf (.array _) hparts
    | mapping entries =>
      rw [coerce]
      exact .madeOf (.map entries) hparts
    -- A value and a stage stay as they are.
    | document | array | map | expression =>
      rw [coerce]
      exact hbuilt
    | addFields | project | query | group | mapOver | reduceOver | filterOver =>
      rw [coerce]
      exact hbuilt

/-- **Which host values have no wire form**: those with a null in a rendered place. The fault
names null as what has none, and there is no other. -/
theorem render_fails_iff (h : host.Built) :
    ((∃ e, host.coerce.render = .error e) ↔ host.HasNull) ∧
      ∀ e, host.coerce.render = .error e → e = .unrenderable .null :=
  ⟨⟨fun ⟨_, he⟩ => (h.hasNull_of_error he).1, HasNull.fails⟩,
    fun _ he => (h.hasNull_of_error he).2⟩

/-- A `$group` by a null id whose accumulator named `_id` is null, and a mapping with a null
that a later entry of the same name overwrites. -/
def overwrittenNull : Host :=
  .sequence [.stage (.groupBy .null (Fields.ofEntries [("_id", .null)])),
    .mapping [("a", .null), ("a", .boolean true)]]

theorem render_fails_iff_overwrittenNull :
    overwrittenNull.Built ∧ overwrittenNull.HasNull ∧
      overwrittenNull.coerce.render = .error (.unrenderable .null) := by
  have hgroup := MadeOf.group [("_id", .null)] Json.WellFormed.null
  have hmapping := MadeOf.mapping [("a", .null), ("a", .boolean true)]
  have hbuilt : overwrittenNull.Built := by
    refine .madeOf (.sequence _)
      (List.forall_mem_cons.mpr ⟨?_, List.forall_mem_singleton.mpr ?_⟩)
    · exact .madeOf hgroup (by simp [Entries.erase])
    · refine .madeOf hmapping
        (List.forall_mem_cons.mpr ⟨.null, List.forall_mem_singleton.mpr ?_⟩)
      exact .madeOf (.leaf rfl) (by simp)
  have hnull : overwrittenNull.HasNull :=
    .part (.sequence _) (by simp) (.part hmapping (by simp) .null)
  obtain ⟨hfails, hfault⟩ := render_fails_iff hbuilt
  obtain ⟨e, he⟩ := hfails.mpr hnull
  exact ⟨hbuilt, hnull, hfault e he ▸ he⟩

end Host
end Aggregation
