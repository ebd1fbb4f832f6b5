import Aggregation.Proofs.HostParts
import Aggregation.Proofs.Rebuild
import Aggregation.Proofs.WrittenPayloads

/-!
# Reading back what a pipeline renders

Whatever the stages of a pipeline hold, the documents that they render are stage documents
again, of the same keywords in the same order. They are well-formed, and their payloads have
the shape in which their keywords write them: the id of a `$group` stands first, and a `$map`,
a `$reduce` or a `$filter` has its arguments and nothing else. So a pipeline that is read back
renders all that it was given but the ids, which stay as they are. It fails on a null elsewhere
than in an id; raw documents, and numbers without a literal, put them there. Else it renders
each value in its normal form (`Json.Normal`). Raw documents may hold digits that spell a
number beyond all finite floats, and these come back as null.

## Main results

* `Stage.shaped_payload` - the shape of a rendered payload.
* `Pipeline.read_back` - what comes of a rendered pipeline when it is read back.
-/

namespace Aggregation

namespace Stage

/-- The payload has the shape in which a stage of the keyword writes it. -/
inductive Shaped : Keyword → Json → Prop
  | query (payload : Json) : Shaped .matching payload
  | fields {keyword : Keyword} (entries : Entries Json) : keyword.RendersWhole →
    Shaped keyword (.object entries)
  | group {id : Json} {entries : Entries Json} : "_id" ∉ Entries.names entries →
    Shaped .group (.object (("_id", id) :: entries))
  | arguments {keyword : Keyword} {entries : Entries Json} : keyword.arguments ≠ [] →
    Entries.names entries = keyword.arguments → Shaped keyword (.object entries)

/-- A null stands in the payload, elsewhere than in the id of a `$group`. -/
inductive NullBesideId : Keyword → Json → Prop
  | payload {keyword : Keyword} {payload : Json} : keyword ≠ .group → payload.HasNull →
    NullBesideId keyword payload
  | entry {entries : Entries Json} {entry : String × Json} : entry ∈ entries →
    entry.1 ≠ "_id" → entry.2.HasNull → NullBesideId .group (.object entries)

/-- The second payload is the first one with its numbers as they are written: digits as the
number that they spell, or as null if it is beyond all finite floats. The id of a `$group`,
which stands first in both, is the same. -/
inductive NormalBesideId : Keyword → Json → Json → Prop
  | payload {keyword : Keyword} {payload written : Json} : keyword ≠ .group →
    Json.Normal payload written → NormalBesideId keyword payload written
  | group (id : Json) {entries written : Entries Json} :
    Json.Normal (.object entries) (.object written) →
      NormalBesideId .group (.object (("_id", id) :: entries)) (.object (("_id", id) :: written))

variable {keyword : Keyword} {payload : Json} {entries : Entries Json} {stage : Stage}

/-! ## The shape of a rendered payload -/

/-- **A rendered payload has the shape of its keyword.** -/
theorem shaped_payload (h : stage.payload = .ok payload) : Shaped stage.keyword payload := by
  cases stage with
  | addFields fields | project fields =>
    rw [Stage.payload] at h
    obtain ⟨written, -, h⟩ := Fault.bind_eq_ok.mp h
    cases h
    exact .fields _ (by simp [Stage.keyword, Keyword.RendersWhole])
  | matching query => exact .query payload
  | group id accumulators =>
    rw [Stage.payload] at h
    obtain ⟨written, -, h⟩ := Fault.bind_eq_ok.mp h
    cases h
    rw [Entries.insertAll_collapse]
    -- The id is written first, and no later entry has its name.
    obtain ⟨id', rest, hrest⟩ := Entries.exists_insertAll_cons "_id" id [] written
    have hdistinct := Entries.names_insertAll_nodup written
      (show (Entries.names [("_id", id)]).Nodup by simp)
    rw [hrest] at hdistinct ⊢
    exact .group (List.nodup_cons.mp hdistinct).1
  | map input body | filter input condition =>
    rw [Stage.payload] at h
    obtain ⟨_, -, h⟩ := Fault.bind_eq_ok.mp h
    obtain ⟨_, -, h⟩ := Fault.bind_eq_ok.mp h
    cases h
    exact .arguments (by simp [Stage.keyword, Keyword.arguments]) rfl
  | reduce input initialValue body =>
    rw [Stage.payload] at h
    obtain ⟨_, -, h⟩ := Fault.bind_eq_ok.mp h
    obtain ⟨_, -, h⟩ := Fault.bind_eq_ok.mp h
    obtain ⟨_, -, h⟩ := Fault.bind_eq_ok.mp h
    cases h
    exact .arguments (by simp [Stage.keyword, Keyword.arguments]) rfl

/-- A payload of the right shape is one of the keyword. -/
theorem Shaped.exists_ofPayload (h : Shaped keyword payload) :
    ∃ stage, ofPayload keyword payload = .ok stage := by
  cases h with
  | query => exact ⟨_, ofPayload_matching payload⟩
  | fields | group | arguments => exact ⟨_, ofPayload_object _ _⟩

/-- In such a payload all is rendered but the id. -/
theorem Shaped.nullPlace_iff (h : Shaped keyword payload) (hwf : payload.WellFormed) :
    NullPlace keyword payload ↔ NullBesideId keyword payload := by
  have hbeside : ∀ {keyword payload}, keyword ≠ .group →
      (NullBesideId keyword payload ↔ payload.HasNull) := by
    intro keyword payload hkeyword
    constructor
    · rintro (⟨-, hnull⟩ | _)
      · exact hnull
      · contradiction
    · exact .payload hkeyword
  cases h with
  | query =>
    have hwhole : Keyword.matching.RendersWhole := .inr (.inr rfl)
    rw [nullPlace_whole_iff hwhole, hbeside hwhole.ne_group]
  | fields entries hwhole => rw [nullPlace_whole_iff hwhole, hbeside hwhole.ne_group]
  | group hid =>
    have hlacks : ∀ payload, ¬ Lacks .group payload := fun _ => not_lacks rfl
    rw [NullPlace, or_iff_left (hlacks _)]
    constructor
    · rintro ⟨_, hwhole | ⟨hmem, hname⟩ | ⟨hname, -⟩, hnull⟩
      · exact absurd rfl hwhole.ne_group
      · exact .entry hmem hname hnull
      · contradiction
    · rintro (⟨hne, -⟩ | ⟨hmem, hname, hnull⟩)
      · contradiction
      · exact ⟨_, .accumulator hmem hname, hnull⟩
  | arguments harguments hnames =>
    rw [hbeside (Keyword.ne_group_of_arguments harguments)]
    exact nullPlace_arguments_iff harguments (hnames ▸ keyword.arguments_nodup)
      fun name => by rw [hnames]

/-- The arguments of such a payload are written in their places. -/
theorem rewrite_of_names_eq (h : keyword.arguments ≠ [])
    (hnames : Entries.names entries = keyword.arguments) :
    rewrite keyword (.object entries) = (Json.object entries).normalize := by
  have hdistinct : (Entries.names entries).Nodup := hnames ▸ keyword.arguments_nodup
  rw [rewrite_arguments h, Json.normalize, Json.normalizeEntries_eq_map, ← hnames, Entries.names,
    List.map_map]
  congr 1
  refine List.map_congr_left fun entry hmem => ?_
  rw [Function.comp_apply, Entries.lookup?_of_mem hdistinct hmem, Option.getD_some]

/-- **Such a payload is written with its numbers normalized**, all but the id. -/
theorem Shaped.normal_rewrite (h : Shaped keyword payload) (hwf : payload.WellFormed)
    (hnull : ¬ NullBesideId keyword payload) :
    NormalBesideId keyword payload (rewrite keyword payload) := by
  have hnormal : keyword ≠ .group → rewrite keyword payload = payload.normalize →
      NormalBesideId keyword payload (rewrite keyword payload) := by
    intro hkeyword hrewrite
    rw [hrewrite]
    exact .payload hkeyword (Json.normal_normalize hwf fun h => hnull (.payload hkeyword h))
  cases h with
  | query =>
    have hwhole : Keyword.matching.RendersWhole := .inr (.inr rfl)
    exact hnormal hwhole.ne_group (rewrite_whole hwhole payload)
  | fields entries hwhole => exact hnormal hwhole.ne_group (rewrite_whole hwhole _)
  | group hid =>
    rename_i id entries
    have hnone : ¬ (Json.object entries).HasNull := by
      rw [Json.hasNull_object_iff]
      rintro ⟨entry, hmem, h⟩
      have hname : entry.1 ≠ "_id" := fun heq => hid (heq ▸ Entries.mem_names_of_mem hmem)
      exact hnull (.entry (List.mem_cons_of_mem _ hmem) hname h)
    have hentries := Json.normal_normalize hwf.tail hnone
    rw [Json.normalize] at hentries
    rw [rewrite_group, Entries.erase_cons_self, Entries.erase_of_notMem hid, Entries.lookup?,
      if_pos rfl, Option.getD_some]
    exact .group id hentries
  | arguments harguments hnames =>
    exact hnormal (Keyword.ne_group_of_arguments harguments) (rewrite_of_names_eq harguments hnames)

/-! ## Rendered documents -/

/-- The document is one that a stage of the keyword renders. -/
def RenderedAs (keyword : Keyword) (document : Json) : Prop :=
  ∃ payload, document = .object [(keyword.symbol, payload)] ∧ payload.WellFormed ∧
    Shaped keyword payload

/-- The document of a stage with a null, elsewhere than in the id of a `$group`. -/
def NullDocumentBesideId (document : Json) : Prop :=
  ∃ keyword payload, document = .object [(Keyword.symbol keyword, payload)] ∧
    NullBesideId keyword payload

/-- The second document is that of the same stage, with its numbers as they are written: null
for digits that spell a number beyond all finite floats. The id of a `$group` is the same. -/
def NormalDocumentBesideId (document written : Json) : Prop :=
  ∃ keyword payload payload', document = .object [(Keyword.symbol keyword, payload)] ∧
    written = .object [(keyword.symbol, payload')] ∧ NormalBesideId keyword payload payload'

variable {document : Json}

/-- **What a stage renders** is a well-formed document of its keyword. -/
theorem renderedAs_of_render (h : (Host.stage stage).Built)
    (hrender : stage.render = .ok document) : RenderedAs stage.keyword document := by
  have hwf : document.WellFormed := h.wellFormed (by rw [Host.render_stage, hrender])
  obtain ⟨payload, hpayload, rfl⟩ := Stage.render_eq_ok.mp hrender
  cases hwf with
  | object _ hentries =>
    exact ⟨payload, rfl, hentries _ List.mem_cons_self, shaped_payload hpayload⟩

/-- It is the document of a stage of that keyword. -/
theorem RenderedAs.exists_stage (h : RenderedAs keyword document) :
    ∃ stage, Stage.ofJson document = .ok stage := by
  obtain ⟨payload, rfl, -, hshaped⟩ := h
  rw [ofJson_keyword]
  exact hshaped.exists_ofPayload

theorem RenderedAs.keyword_eq (h : RenderedAs keyword document)
    (hstage : Stage.ofJson document = .ok stage) : keyword = stage.keyword := by
  obtain ⟨payload, rfl, -, -⟩ := h
  rw [ofJson_keyword] at hstage
  exact (keyword_of_ofPayload hstage).symm

theorem nullDocumentBesideId_iff :
    NullDocumentBesideId (.object [(keyword.symbol, payload)]) ↔ NullBesideId keyword payload := by
  constructor
  · rintro ⟨keyword', payload', hdocument, hnull⟩
    obtain ⟨rfl, rfl⟩ := Keyword.document_inj hdocument
    exact hnull
  · exact fun hnull => ⟨keyword, payload, rfl, hnull⟩

theorem RenderedAs.nullDocument_iff (h : RenderedAs keyword document) :
    Command.NullDocument document ↔ NullDocumentBesideId document := by
  obtain ⟨payload, rfl, hwf, hshaped⟩ := h
  rw [Command.nullDocument_iff, hshaped.nullPlace_iff hwf, nullDocumentBesideId_iff]

/-- The stage that is read back renders the document again, its numbers normalized. -/
theorem RenderedAs.normal_render (h : RenderedAs keyword document)
    (hstage : Stage.ofJson document = .ok stage) (hnull : ¬ NullDocumentBesideId document) :
    ∃ written, stage.render = .ok written ∧ NormalDocumentBesideId document written := by
  rw [← h.nullDocument_iff] at hnull
  obtain ⟨payload, rfl, hwf, hshaped⟩ := h
  rw [ofJson_keyword] at hstage
  rw [Command.nullDocument_iff] at hnull
  refine ⟨_, render_eq_rewrite hwf hstage hnull, keyword, payload, _, rfl, rfl, ?_⟩
  exact hshaped.normal_rewrite hwf (mt (hshaped.nullPlace_iff hwf).mpr hnull)

end Stage

/-! ## Rendered pipelines -/

namespace Pipeline

open Stage (RenderedAs NullDocumentBesideId NormalDocumentBesideId)

variable {stages read : List Stage} {w : List Json}

/-- Each document is rendered as a stage of some keyword. -/
theorem exists_keyword_of_rendered (h : List.Forall₂
    (fun s document => RenderedAs s.keyword document) stages w) {document : Json}
    (hmem : document ∈ w) : ∃ keyword, RenderedAs keyword document := by
  obtain ⟨s, -, hs⟩ := Fault.exists_mem_of_forall₂ h.flip hmem
  exact ⟨s.keyword, hs⟩

/-- The documents of stages are read back, with the keywords of the stages. -/
theorem exists_read_stages (h : List.Forall₂ (fun s document => RenderedAs s.keyword document)
    stages w) : ∃ read, w.mapM Stage.ofJson = .ok read ∧
      read.map Stage.keyword = stages.map Stage.keyword := by
  obtain ⟨read, hread⟩ := Fault.mapM_succeeds_iff.mpr fun document hmem => by
    obtain ⟨keyword, hrendered⟩ := exists_keyword_of_rendered h hmem
    exact hrendered.exists_stage
  have hpairs := Fault.forall₂_comp_iff.mp ⟨w, h, Fault.mapM_eq_ok.mp hread⟩
  refine ⟨read, hread, ?_⟩
  rw [← List.forall₂_eq_eq_eq, List.forall₂_map_left_iff, List.forall₂_map_right_iff]
  exact hpairs.flip.imp fun s' s ⟨document, hrendered, hs'⟩ => (hrendered.keyword_eq hs').symm

/-- The stages that are read back fail exactly on a null elsewhere than in an id. -/
theorem read_nullFault (h : ∀ document ∈ w, ∃ keyword, RenderedAs keyword document)
    (hread : w.mapM Stage.ofJson = .ok read) :
    NullFault (read.mapM Stage.render) (∃ document ∈ w, NullDocumentBesideId document) := by
  refine (Command.stages_nullFault hread).congr (exists_congr fun document => ?_)
  refine and_congr_right fun hmem => ?_
  obtain ⟨keyword, hrendered⟩ := h document hmem
  exact hrendered.nullDocument_iff

/-- Without such a null each of them renders its document again, normalized. -/
theorem exists_normal_documents (h : ∀ document ∈ w, ∃ keyword, RenderedAs keyword document)
    (hread : w.mapM Stage.ofJson = .ok read)
    (hnull : ∀ document ∈ w, ¬ NullDocumentBesideId document) :
    ∃ w', read.mapM Stage.render = .ok w' ∧ List.Forall₂ NormalDocumentBesideId w w' := by
  have hpairs := (List.forall₂_and_left (p := fun document =>
    (∃ keyword, RenderedAs keyword document) ∧ ¬ NullDocumentBesideId document) _ _).mpr
      ⟨fun document hmem => ⟨h document hmem, hnull document hmem⟩, Fault.mapM_eq_ok.mp hread⟩
  have hwritten : List.Forall₂ (fun document s =>
      ∃ written, NormalDocumentBesideId document written ∧ s.render = .ok written) w read := by
    refine hpairs.imp ?_
    rintro document s ⟨⟨⟨keyword, hrendered⟩, hnone⟩, hs⟩
    obtain ⟨written, hrender, hnormal⟩ := hrendered.normal_render hs hnone
    exact ⟨written, hnormal, hrender⟩
  obtain ⟨w', hnormal, hrender⟩ :=
    (Fault.forall₂_comp_iff (S := fun written (s : Stage) => s.render = .ok written)).mpr hwritten
  exact ⟨w', Fault.mapM_eq_ok.mpr hrender.flip, hnormal⟩

/-- **Reading back what a pipeline renders.** The rendered documents are a pipeline of as many
stages, with the same keywords in the same order. It fails to render exactly on a null that
stands elsewhere than in the id of a `$group`; else each document is rendered again with its
numbers normalized, and the ids as they were. Digits come back as the number that they spell,
and as null, without a fault, if that number is beyond all finite floats. -/
theorem read_back {calls : List Call} (hcalls : ∀ call ∈ calls, (Host.stage call.stage).Built)
    (hw : (ofCalls calls).render = .ok w) :
    ∃ q, ofJson (.array w) = .ok q ∧ q.size = (ofCalls calls).size ∧
      q.toList.map Stage.keyword = (ofCalls calls).toList.map Stage.keyword ∧
      (q.render = .error (.unrenderable .null) ↔
        ∃ document ∈ w, NullDocumentBesideId document) ∧
      ((∀ document ∈ w, ¬ NullDocumentBesideId document) →
        ∃ w', q.render = .ok w' ∧ List.Forall₂ NormalDocumentBesideId w w') := by
  have hchain := chains_ofCalls calls
  rw [hchain.render_eq, Fault.mapM_eq_ok] at hw
  have hrendered : List.Forall₂ (fun s document => RenderedAs s.keyword document)
      (calls.map Call.stage) w := by
    have hbuilt := (List.forall₂_and_left (p := fun s => (Host.stage s).Built) _ _).mpr
      ⟨List.forall_mem_map.mpr hcalls, hw⟩
    exact hbuilt.imp fun s document ⟨hs, hrender⟩ => Stage.renderedAs_of_render hs hrender
  have hdocuments : ∀ document ∈ w, ∃ keyword, RenderedAs keyword document :=
    fun document => exists_keyword_of_rendered hrendered
  obtain ⟨read, hread, hkeywords⟩ := exists_read_stages hrendered
  obtain ⟨q, hq, hqchain⟩ := exists_ofJson_array hread
  refine ⟨q, hq, ?_, ?_, ?_, ?_⟩
  · have hlength := congrArg List.length hkeywords
    rw [List.length_map, List.length_map] at hlength
    rw [size, size, hqchain.size_eq, hchain.size_eq, hlength]
  · rw [hqchain.toList_eq, hchain.toList_eq, hkeywords]
  · rw [hqchain.render_eq]
    exact (read_nullFault hdocuments hread).eq_fault_iff
  · rw [hqchain.render_eq]
    exact exists_normal_documents hdocuments hread

/-- A `$group` by digits, and a `$filter` of a raw document with digits. -/
def rawDigits : List Call :=
  [.groupBy (.string "2024") (Fields.ofEntries [("n", .integer 7)]),
    .append (.filterOver (.value (.document [("a", .string "8")])) (.boolean true))]

/-- What they render. -/
def rawDigitsDocuments : List Json :=
  [.object [("$group", .object [("_id", .string "2024"), ("n", .integer 7)])],
    .object [("$filter", .object [("input", .object [("a", .string "8")]), ("cond", .bool true)])]]

theorem read_back_rawDigits :
    (∀ call ∈ rawDigits, (Host.stage call.stage).Built) ∧
      (ofCalls rawDigits).render = .ok rawDigitsDocuments ∧
      ∃ q w', ofJson (.array rawDigitsDocuments) = .ok q ∧ q.size = 2 ∧
        q.toList.map Stage.keyword = [.group, .filter] ∧ q.render = .ok w' ∧
        List.Forall₂ NormalDocumentBesideId rawDigitsDocuments w' := by
  have hbuilt : ∀ call ∈ rawDigits, (Host.stage call.stage).Built := by
    refine List.forall_mem_cons.mpr ⟨?_, List.forall_mem_singleton.mpr ?_⟩
    · refine .madeOf (.group _ (.string "2024")) ?_
      exact List.forall_mem_singleton.mpr (.madeOf (.leaf rfl) (by simp))
    · refine .madeOf (.filterOver _ _)
        (List.forall_mem_cons.mpr ⟨?_, List.forall_mem_singleton.mpr ?_⟩)
      · exact .madeOf (.document (.singleton "a" (.string "8"))) (by simp)
      · exact .madeOf (.leaf rfl) (by simp)
  have hrender : (ofCalls rawDigits).render = .ok rawDigitsDocuments := rfl
  have hnull : ∀ document ∈ rawDigitsDocuments, ¬ NullDocumentBesideId document := by
    refine List.forall_mem_cons.mpr ⟨?_, List.forall_mem_singleton.mpr ?_⟩
    · change ¬ NullDocumentBesideId (.object [(Keyword.group.symbol, _)])
      rw [Stage.nullDocumentBesideId_iff]
      rintro (⟨hne, -⟩ | ⟨hmem, hname, hnull⟩)
      · contradiction
      · rcases List.mem_cons.mp hmem with rfl | hmem
        · contradiction
        · rw [List.mem_singleton.mp hmem, Json.hasNull_leaf_iff (by simp) (by simp)] at hnull
          contradiction
    · change ¬ NullDocumentBesideId (.object [(Keyword.filter.symbol, _)])
      rw [Stage.nullDocumentBesideId_iff]
      rintro (⟨-, hnull⟩ | _)
      simp [Json.hasNull_object_iff, Json.hasNull_leaf_iff] at hnull
  obtain ⟨q, hq, hsize, hkeywords, -, hwritten⟩ := read_back hbuilt hrender
  obtain ⟨w', hw', hnormal⟩ := hwritten hnull
  exact ⟨hbuilt, hrender, q, w', hq, hsize, hkeywords, hw', hnormal⟩

end Pipeline
end Aggregation
