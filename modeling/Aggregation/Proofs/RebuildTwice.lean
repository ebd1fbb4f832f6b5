import Aggregation.Proofs.Rebuild
import Aggregation.Proofs.WrittenPayloads

/-!
# Rebuilding a pipeline twice

A pipeline that was written is read again, stage by stage, and each stage is written as it
stands. The one exception are digits that spell a number beyond all finite floats: they are
written as null, and the null is refused the second time.

## Main results

* `Command.Written.normalDocument` - what a document is written as.
* `Command.rebuild_twice` - what a pipeline is written as, and what comes of it the second time.
* `Command.overflowing_not_again` - a query that is written, and not a second time.
-/

namespace Aggregation.Command

open Stage (NormalPayload NullPlace Renders rewrite)

/-- The document is that of a stage, and the stage is written as the second document. -/
def Written (document written : Json) : Prop :=
  ∃ stage, Stage.ofJson document = .ok stage ∧ stage.render = .ok written

/-- The second document is that of the same stage, with what the stage renders of its payload
in normal form: null for digits that spell a number beyond all finite floats. -/
def NormalDocument (document written : Json) : Prop :=
  ∃ keyword payload payload', document = .object [(Keyword.symbol keyword, payload)] ∧
    written = .object [(keyword.symbol, payload')] ∧ NormalPayload keyword payload payload'

/-- The document of a stage with digits, in a place that it renders, that spell a number
beyond all finite floats. -/
def OverflowDocument (document : Json) : Prop :=
  ∃ keyword payload part, document = .object [(Keyword.symbol keyword, payload)] ∧
    Renders keyword payload part ∧ part.Overflows

/-- One of the documents of the array overflows. -/
def OverflowPipeline (j : Json) : Prop :=
  ∃ documents, j = .array documents ∧ ∃ document ∈ documents, OverflowDocument document

variable {document written : Json} {documents : List Json} {w : List Json}
variable {keyword : Keyword} {payload : Json}

theorem overflowDocument_iff : OverflowDocument (.object [(keyword.symbol, payload)]) ↔
    ∃ part, Renders keyword payload part ∧ part.Overflows := by
  constructor
  · rintro ⟨keyword', payload', part, h, hpart⟩
    obtain ⟨rfl, rfl⟩ := Keyword.document_inj h
    exact ⟨part, hpart⟩
  · rintro ⟨part, hpart⟩
    exact ⟨keyword, payload, part, rfl, hpart⟩

theorem overflowPipeline_array_iff :
    OverflowPipeline (.array documents) ↔ ∃ document ∈ documents, OverflowDocument document := by
  constructor
  · rintro ⟨_, ⟨⟩, h⟩
    exact h
  · exact fun h => ⟨documents, rfl, h⟩

/-! ## One document -/

/-- A document that is written is that of a stage whose payload has no null to render, and
is written with the payload rewritten. -/
theorem Written.exists_payload (hwf : document.WellFormed) (h : Written document written) :
    ∃ keyword payload stage, document = .object [(Keyword.symbol keyword, payload)] ∧
      payload.WellFormed ∧ Stage.ofPayload keyword payload = .ok stage ∧
      ¬ NullPlace keyword payload ∧
      written = .object [(keyword.symbol, rewrite keyword payload)] := by
  obtain ⟨stage, hstage, hrender⟩ := h
  obtain ⟨keyword, payload, rfl, hpayload⟩ := Stage.ofJson_eq_ok_iff.mp hstage
  have hwf' : payload.WellFormed := by
    cases hwf with
    | object _ hentries => exact hentries _ List.mem_cons_self
  have hnull := (Stage.render_nullFault hpayload).succeeds_iff.mp ⟨written, hrender⟩
  rw [Stage.render_eq_rewrite hwf' hpayload hnull] at hrender
  exact ⟨keyword, payload, stage, rfl, hwf', hpayload, hnull, (Except.ok.inj hrender).symm⟩

/-- **What a document is written as.** -/
theorem Written.normalDocument (hwf : document.WellFormed) (h : Written document written) :
    NormalDocument document written := by
  obtain ⟨keyword, payload, stage, rfl, hwf', hpayload, hnull, rfl⟩ := h.exists_payload hwf
  exact ⟨keyword, payload, _, rfl, rfl, Stage.normalPayload_rewrite hwf' hpayload hnull⟩

/-- What was written is the document of a stage. -/
theorem Written.exists_stage (hwf : document.WellFormed) (h : Written document written) :
    ∃ stage, Stage.ofJson written = .ok stage := by
  obtain ⟨keyword, payload, stage, -, -, hpayload, -, rfl⟩ := h.exists_payload hwf
  rw [Stage.ofJson_keyword]
  exact Stage.ofPayload_rewrite hpayload

/-- What was written has a null to render exactly if the document overflowed. -/
theorem Written.nullDocument_iff (hwf : document.WellFormed) (h : Written document written) :
    NullDocument written ↔ OverflowDocument document := by
  obtain ⟨keyword, payload, stage, rfl, hwf', hpayload, hnull, rfl⟩ := h.exists_payload hwf
  rw [Command.nullDocument_iff, overflowDocument_iff,
    Stage.nullPlace_rewrite_iff hwf' hpayload hnull]

/-- **What was written is written as it stands**, if the document did not overflow. -/
theorem Written.again (hwf : document.WellFormed) (h : Written document written)
    (hover : ¬ OverflowDocument document) : Written written written := by
  have hnull := mt (h.nullDocument_iff hwf).mp hover
  obtain ⟨stage', hstage'⟩ := h.exists_stage hwf
  obtain ⟨keyword, payload, stage, -, hwf', hpayload, -, rfl⟩ := h.exists_payload hwf
  rw [Command.nullDocument_iff] at hnull
  rw [Stage.ofJson_keyword] at hstage'
  refine ⟨stage', by rw [Stage.ofJson_keyword, hstage'], ?_⟩
  rw [Stage.render_eq_rewrite (Stage.wellFormed_rewrite hwf' hpayload) hstage' hnull,
    Stage.rewrite_rewrite hpayload]

/-! ## Whole pipelines -/

/-- A pipeline is written document by document. -/
theorem exists_pipeline_iff :
    (∃ p, Pipeline.ofJson (.array documents) = .ok p ∧ p.render = .ok w) ↔
      List.Forall₂ Written documents w := by
  constructor
  · rintro ⟨p, hp, hw⟩
    obtain ⟨stages, hstages, hchain⟩ := Pipeline.chains_of_ofJson hp
    rw [hchain.render_eq] at hw
    exact Fault.forall₂_comp_iff.mp ⟨stages, Fault.mapM_eq_ok.mp hstages, Fault.mapM_eq_ok.mp hw⟩
  · intro h
    obtain ⟨stages, hstages, hw⟩ := Fault.forall₂_comp_iff.mpr h
    obtain ⟨p, hp, hchain⟩ := Pipeline.exists_ofJson_array (Fault.mapM_eq_ok.mpr hstages)
    exact ⟨p, hp, hchain.render_eq.trans (Fault.mapM_eq_ok.mpr hw)⟩

/-- A written pipeline is a pipeline, which can only fail on a number that overflowed. -/
theorem exists_pipeline_again (hwf : ∀ document ∈ documents, document.WellFormed)
    (h : List.Forall₂ Written documents w) :
    ∃ q, Pipeline.ofJson (.array w) = .ok q ∧
      NullFault q.render (∃ document ∈ documents, OverflowDocument document) := by
  have hpairs := (List.forall₂_and_left _ _).mpr ⟨hwf, h⟩
  obtain ⟨stages, hstages⟩ := Fault.mapM_succeeds_iff.mpr fun written hmem => by
    obtain ⟨document, -, hdocument, hwritten⟩ := Fault.exists_mem_of_forall₂ hpairs.flip hmem
    exact hwritten.exists_stage hdocument
  obtain ⟨q, hq, hchain⟩ := Pipeline.exists_ofJson_array hstages
  refine ⟨q, hq, ?_⟩
  rw [hchain.render_eq]
  refine (stages_nullFault hstages).congr ⟨?_, ?_⟩
  · rintro ⟨written, hmem, hnull⟩
    obtain ⟨document, hmem', hdocument, hwritten⟩ :=
      Fault.exists_mem_of_forall₂ hpairs.flip hmem
    exact ⟨document, hmem', (hwritten.nullDocument_iff hdocument).mp hnull⟩
  · rintro ⟨document, hmem, hover⟩
    obtain ⟨written, hmem', hdocument, hwritten⟩ := Fault.exists_mem_of_forall₂ hpairs hmem
    exact ⟨written, hmem', (hwritten.nullDocument_iff hdocument).mpr hover⟩

/-- Without an overflow every written document is written as it stands. -/
theorem written_again (hwf : ∀ document ∈ documents, document.WellFormed)
    (h : List.Forall₂ Written documents w)
    (hover : ∀ document ∈ documents, ¬ OverflowDocument document) :
    List.Forall₂ Written w w := by
  have hpairs := (List.forall₂_and_left _ _).mpr ⟨hwf, h⟩
  refine List.forall₂_same.mpr fun written hmem => ?_
  obtain ⟨document, hmem', hdocument, hwritten⟩ := Fault.exists_mem_of_forall₂ hpairs.flip hmem
  exact hwritten.again hdocument (hover document hmem')

/-- A `$match` overflows where its query does. -/
theorem overflowDocument_match_iff :
    OverflowDocument (.object [("$match", payload)]) ↔ payload.Overflows := by
  have hwhole : Keyword.matching.RendersWhole := .inr (.inr rfl)
  change OverflowDocument (.object [(Keyword.matching.symbol, payload)]) ↔ _
  rw [overflowDocument_iff]
  simp only [Stage.renders_whole_iff hwhole, exists_eq_left]

/-- A `$match` without null is written with its query normalized. -/
theorem written_match (hwf : payload.WellFormed) (hnull : ¬ payload.HasNull) :
    Written (.object [("$match", payload)]) (.object [("$match", payload.normalize)]) := by
  have hwhole : Keyword.matching.RendersWhole := .inr (.inr rfl)
  have hstage := Stage.ofPayload_matching payload
  refine ⟨_, (Stage.ofJson_keyword .matching payload).trans hstage, ?_⟩
  rw [Stage.render_eq_rewrite hwf hstage (mt (Stage.nullPlace_whole_iff hwhole).mp hnull),
    Stage.rewrite_whole hwhole]
  rfl

/-- Every document of a pipeline is written in its normal form. -/
theorem normal_documents (hwf : ∀ document ∈ documents, document.WellFormed)
    (h : List.Forall₂ Written documents w) : List.Forall₂ NormalDocument documents w :=
  ((List.forall₂_and_left _ _).mpr ⟨hwf, h⟩).imp fun _ _ ⟨hdocument, hwritten⟩ =>
    hwritten.normalDocument hdocument

/-- **Rebuilding twice.** A pipeline is written with what its stages render in normal form;
there a null takes the place of digits whose number overflowed. What it was written as is a
pipeline again, and is written as it stands; only if a number overflowed, the second time
fails on the null that was written for it. -/
theorem rebuild_twice {j : Json} {p : Pipeline} {w : List Json} (hj : j.WellFormed)
    (hp : Pipeline.ofJson j = .ok p) (hw : p.render = .ok w) :
    (∃ documents, j = .array documents ∧ List.Forall₂ NormalDocument documents w) ∧
      ∃ q, Pipeline.ofJson (.array w) = .ok q ∧
        (¬ OverflowPipeline j → q.render = .ok w) ∧
        (OverflowPipeline j → q.render = .error (.unrenderable .null)) := by
  cases hj with
  | array hdocuments =>
    rw [overflowPipeline_array_iff]
    have hpairs := exists_pipeline_iff.mp ⟨p, hp, hw⟩
    obtain ⟨q, hq, hrender⟩ := exists_pipeline_again hdocuments hpairs
    refine ⟨⟨_, rfl, normal_documents hdocuments hpairs⟩, q, hq, fun hover => ?_, hrender.fault⟩
    push Not at hover
    obtain ⟨q', hq', hrender'⟩ :=
      exists_pipeline_iff.mpr (written_again hdocuments hpairs hover)
    rw [hq] at hq'
    cases hq'
    exact hrender'
  | null | bool | integer | float | string | object =>
    rw [Pipeline.ofJson_of_not_array (by simp)] at hp
    contradiction

/-- The query `007` is written as `7`, and then stays. -/
theorem rebuild_twice_digits :
    ∃ p q, Pipeline.ofJson (.array [.object [("$match", .string "007")]]) = .ok p ∧
      p.render = .ok [.object [("$match", .integer 7)]] ∧
      List.Forall₂ NormalDocument [.object [("$match", .string "007")]]
        [.object [("$match", .integer 7)]] ∧
      Pipeline.ofJson (.array [.object [("$match", .integer 7)]]) = .ok q ∧
      q.render = .ok [.object [("$match", .integer 7)]] := by
  have hspells : Json.Spells "007" 7 := ⟨by decide, by decide⟩
  have hdigits : Json.normalize (.string "007") = .integer 7 := by
    rw [Json.normalize_string_of_spells hspells, Number.render_ofDigits_of_lt (by decide)]
    rfl
  have hwf : (Json.array [.object [("$match", .string "007")]]).WellFormed :=
    .array (by simpa using .object (by decide) (by simpa using .string "007"))
  have hover : ¬ OverflowPipeline (.array [.object [("$match", .string "007")]]) := by
    rw [overflowPipeline_array_iff]
    rintro ⟨document, hmem, hdocument⟩
    rw [List.mem_singleton.mp hmem, overflowDocument_match_iff,
      ← Json.hasNull_normalize_string_iff, hdigits, Json.hasNull_leaf_iff (by simp) (by simp)]
      at hdocument
    contradiction
  have hwritten := written_match (.string "007") (by simp [Json.hasNull_leaf_iff])
  rw [hdigits] at hwritten
  obtain ⟨p, hp, hw⟩ := exists_pipeline_iff.mpr (.cons hwritten .nil)
  obtain ⟨⟨_, ⟨⟩, hnormal⟩, q, hq, hrender, -⟩ := rebuild_twice hwf hp hw
  exact ⟨p, q, hp, hw, hnormal, hq, hrender hover⟩

/-- A query for a number that overflows. -/
def overflowing : Json := .array [.object [("$match", .string (Json.powerOfTen 309))]]

/-- The query is written as null, and what was written is not rendered again. -/
theorem overflowing_not_again :
    overflowing.WellFormed ∧
      (∃ p, Pipeline.ofJson overflowing = .ok p ∧ p.render = .ok [.object [("$match", .null)]]) ∧
      ¬ ∃ q, Pipeline.ofJson (.array [.object [("$match", .null)]]) = .ok q ∧
        q.render = .ok [.object [("$match", .null)]] := by
  refine ⟨?_, ?_, ?_⟩
  · exact .array (by simpa using .object (by simp) (by simpa using .string _))
  · have hwritten := written_match (.string (Json.powerOfTen 309))
      (by simp [Json.hasNull_leaf_iff])
    rw [Json.normalize_overflowing (Json.spells_powerOfTen 309) Json.overflow_le_ten_pow]
      at hwritten
    exact exists_pipeline_iff.mpr (.cons hwritten .nil)
  · rintro ⟨q, hq⟩
    cases exists_pipeline_iff.mp ⟨q, hq⟩ with
    | cons hwritten _ =>
      obtain ⟨stage, hstage, hrender⟩ := hwritten
      have hnull := (stage_nullFault hstage).succeeds_iff.mp ⟨_, hrender⟩
      exact hnull ⟨.matching, .null, rfl,
        (Stage.nullPlace_whole_iff (.inr (.inr rfl))).mpr Json.hasNull_null⟩

end Aggregation.Command
