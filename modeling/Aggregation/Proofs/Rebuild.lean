import Aggregation.Command.Execute
import Aggregation.Proofs.Payloads

/-!
# Rebuilding a pipeline

The outcome of a rebuild for every JSON value. All documents are decoded before the first
stage is rendered, so a document that is no stage decides even behind a stage that could
not be rendered. When all are stages, only a null in a rendered place is a fault.
-/

namespace Aggregation.Command

open Stage (DocumentFault NullPlace)

/-- The document of a stage with a null in a place that it renders. -/
def NullDocument (document : Json) : Prop :=
  ∃ keyword payload, document = .object [(Keyword.symbol keyword, payload)] ∧
    NullPlace keyword payload

theorem nullDocument_iff {keyword : Keyword} {payload : Json} :
    NullDocument (.object [(keyword.symbol, payload)]) ↔ NullPlace keyword payload := by
  constructor
  · rintro ⟨keyword', payload', h, hplace⟩
    obtain ⟨rfl, rfl⟩ := Keyword.document_inj h
    exact hplace
  · exact fun hplace => ⟨keyword, payload, rfl, hplace⟩

variable {document : Json} {documents : List Json} {stage : Stage} {stages : List Stage}

/-- The stage of a document renders unless the document is one with a null. -/
theorem stage_nullFault (h : Stage.ofJson document = .ok stage) :
    NullFault stage.render (NullDocument document) := by
  obtain ⟨keyword, payload, rfl, hpayload⟩ := Stage.ofJson_eq_ok_iff.mp h
  exact (Stage.render_nullFault hpayload).congr nullDocument_iff.symm

/-- Documents that are all stages render unless there is a null in one of them. -/
theorem stages_nullFault (h : documents.mapM Stage.ofJson = .ok stages) :
    NullFault (stages.mapM Stage.render) (∃ document ∈ documents, NullDocument document) :=
  NullFault.mapM_forall₂ ((Fault.mapM_eq_ok.mp h).imp fun _ _ => stage_nullFault)

theorem rebuild_of_not_array {j : Json} (h : ∀ documents, j ≠ .array documents) :
    rebuild j = .error (.decode .pipelineNotArray) := by
  rw [rebuild, Pipeline.ofJson_of_not_array h]
  rfl

/-- The fault of decoding decides before anything is rendered. -/
theorem rebuild_of_decode_error {e : DecodeError} (h : documents.mapM Stage.ofJson = .error e) :
    rebuild (.array documents) = .error (.decode e) := by
  rw [rebuild, Pipeline.ofJson_array, h]
  rfl

/-- Stages are rendered in the order of their documents. -/
theorem rebuild_of_stages (h : documents.mapM Stage.ofJson = .ok stages) :
    rebuild (.array documents) = (stages.mapM Stage.render).mapError .render := by
  obtain ⟨p, hp, hchain⟩ := Pipeline.exists_ofJson_array h
  rw [rebuild, hp, ← hchain.render_eq]
  rfl

/-- **The outcome of a rebuild.** What is not an array is refused. In an array, the first
document that is no stage decides, whatever the others hold. When all documents are stages,
the outcome is the fault of a null exactly if one of them has a null in a rendered place,
and else one document is written for each. -/
theorem rebuild_outcome (j : Json) :
    ((∀ documents, j ≠ .array documents) → rebuild j = .error (.decode .pipelineNotArray)) ∧
    ∀ documents, j = .array documents →
      (∀ before document after e, documents = before ++ document :: after →
        (∀ d ∈ before, ∀ e, ¬ DocumentFault d e) → DocumentFault document e →
          rebuild j = .error (.decode e)) ∧
      ((∀ d ∈ documents, ∀ e, ¬ DocumentFault d e) →
        (rebuild j = .error (.render (.unrenderable .null)) ↔ ∃ d ∈ documents, NullDocument d) ∧
        ((∀ d ∈ documents, ¬ NullDocument d) →
          ∃ written, rebuild j = .ok written ∧ written.length = documents.length)) := by
  refine ⟨rebuild_of_not_array, ?_⟩
  rintro documents rfl
  constructor
  · intro before document after e hdocuments hbefore hfault
    apply rebuild_of_decode_error
    refine Fault.mapM_eq_error.mpr ⟨before, document, after, hdocuments, fun d hd => ?_, ?_⟩
    · exact Stage.exists_stage_iff.mpr (hbefore d hd)
    · exact hfault.ofJson_eq
  · intro hstages
    obtain ⟨stages, hdecode⟩ := Fault.mapM_succeeds_iff.mpr fun d hd =>
      Stage.exists_stage_iff.mpr (hstages d hd)
    have hnull := stages_nullFault hdecode
    rw [rebuild_of_stages hdecode]
    constructor
    · rw [← hnull.eq_fault_iff]
      cases stages.mapM Stage.render <;> simp [Except.mapError]
    · intro hnone
      obtain ⟨written, hwritten⟩ := hnull.success fun ⟨d, hd, hdnull⟩ => hnone d hd hdnull
      have hlength := (Fault.mapM_eq_ok.mp hdecode).length_eq.trans
        (Fault.mapM_eq_ok.mp hwritten).length_eq
      rw [hwritten]
      exact ⟨written, rfl, hlength.symm⟩

end Aggregation.Command
