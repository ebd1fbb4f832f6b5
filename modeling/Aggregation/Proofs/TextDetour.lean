import Aggregation.Command.Execute
import Aggregation.Proofs.HostParts
import Aggregation.Proofs.ReadLayouts

/-!
# Pipelines through their text

The text of a rendered pipeline is read as the documents that were rendered. So the `render`
command makes of the text, compact or pretty, what rebuilding the documents makes of them, be
it documents or a fault. The text has to nest no deeper than the reader goes; floats are left
out, as their literals need not be read as the same floats.

## Main results

* `Pipeline.wellFormed_of_render` - what is rendered is well-formed JSON.
* `Pipeline.renderInput_texts` - the two texts of a pipeline, as input of the command.
-/

namespace Aggregation

/-- The command rebuilds the document that the text is read as. -/
theorem Command.renderInput_of_read {text : String} {document : Json}
    (h : Json.read text = .ok document) :
    renderInput (some text) = (rebuild document).map Json.array := by
  simp only [renderInput, readJson, h, Except.mapError, Fault.ok_bind]
  cases rebuild document <;> rfl

namespace Pipeline

variable {p : Pipeline} {w : List Json}

/-- **What a pipeline renders is well-formed**: integers have 64 bits, and the keys of each
object are distinct. -/
theorem wellFormed_of_render (hp : ∀ stage ∈ p.toList, (Host.stage stage).Built)
    (hw : p.render = .ok w) : (Json.array w).WellFormed := by
  have hpairs := Fault.mapM_eq_ok.mp hw
  refine .array fun document hmem => ?_
  obtain ⟨stage, hstage, hrender⟩ := Fault.exists_mem_of_forall₂ hpairs.flip hmem
  exact (hp stage hstage).wellFormed (by rw [Host.render_stage, hrender])

/-- **A pipeline goes through its text.** Given the compact or the pretty text of a pipeline,
the command gives what rebuilding and rendering the documents of the pipeline gives: the same
documents, with their keys in the same order, or the same fault. -/
theorem renderInput_texts (hp : ∀ stage ∈ p.toList, (Host.stage stage).Built)
    (hw : p.render = .ok w) (hfloat : ∀ document ∈ w, ¬ document.HasFloat)
    (hdepth : (Json.array w).depth < 128) :
    ∃ compact pretty, p.toJson = .ok compact ∧ p.toPrettyJson = .ok pretty ∧
      Command.renderInput (some compact) = (Command.rebuild (.array w)).map Json.array ∧
      Command.renderInput (some pretty) = (Command.rebuild (.array w)).map Json.array := by
  have hwf := wellFormed_of_render hp hw
  have hnone : ¬ (Json.array w).HasFloat := by
    rw [Json.hasFloat_array_iff]
    rintro ⟨document, hmem, h⟩
    exact hfloat document hmem h
  have hlevels : (Json.array w).depth ≤ Json.maxDepth := Nat.le_of_lt_succ hdepth
  refine ⟨(Json.array w).compact, (Json.array w).pretty, ?_, ?_, ?_, ?_⟩
  · rw [toJson, hw]
    rfl
  · rw [toPrettyJson, hw]
    rfl
  · exact Command.renderInput_of_read (Json.read_compact hwf hnone hlevels)
  · exact Command.renderInput_of_read (Json.read_pretty hwf hnone hlevels)

/-- A `$group` by digits, and a `$match`, with quotes, backslashes, control characters and
others, the limits of 64 bits, and parts without content. -/
def escapedCalls : List Call :=
  [.groupBy (.string "12\"\\") (Fields.ofEntries [("a\u0001/é𝄞", .unsigned 18446744073709551615)]),
    .matchQuery (.mapping [("", .integer (-9223372036854775808)),
      ("\n\t", .string "x\"/\\"), ("k", .sequence [.sequence [], .mapping []])])]

/-- What they render. -/
def escapedDocuments : List Json :=
  [.object [("$group", .object [("_id", .string "12\"\\"),
      ("a\u0001/é𝄞", .integer 18446744073709551615)])],
    .object [("$match", .object [("", .integer (-9223372036854775808)),
      ("\n\t", .string "x\"/\\"), ("k", .array [.array [], .object []])])]]

theorem renderInput_texts_escaped :
    (∀ stage ∈ (ofCalls escapedCalls).toList, (Host.stage stage).Built) ∧
      (ofCalls escapedCalls).render = .ok escapedDocuments ∧
      (∀ document ∈ escapedDocuments, ¬ document.HasFloat) ∧
      (Json.array escapedDocuments).depth < 128 ∧
      ∃ compact pretty, (ofCalls escapedCalls).toJson = .ok compact ∧
        (ofCalls escapedCalls).toPrettyJson = .ok pretty ∧
        Command.renderInput (some compact) =
          (Command.rebuild (.array escapedDocuments)).map Json.array ∧
        Command.renderInput (some pretty) =
          (Command.rebuild (.array escapedDocuments)).map Json.array := by
  have hstages : (ofCalls escapedCalls).toList = escapedCalls.map Call.stage :=
    (chains_ofCalls escapedCalls).toList_eq
  have hbuilt : ∀ stage ∈ (ofCalls escapedCalls).toList, (Host.stage stage).Built := by
    rw [hstages]
    refine List.forall_mem_cons.mpr ⟨?_, List.forall_mem_singleton.mpr ?_⟩
    · refine .madeOf (.group _ (.string _)) ?_
      exact List.forall_mem_singleton.mpr (.madeOf (.leaf rfl) (by simp))
    · refine .madeOf (.query _) (List.forall_mem_singleton.mpr (.madeOf (.mapping _) ?_))
      refine List.forall_mem_cons.mpr ⟨.madeOf (.leaf rfl) (by simp),
        List.forall_mem_cons.mpr ⟨.madeOf (.leaf rfl) (by simp),
          List.forall_mem_singleton.mpr (.madeOf (.sequence _) ?_)⟩⟩
      exact List.forall_mem_cons.mpr ⟨.madeOf (.sequence _) (by simp),
        List.forall_mem_singleton.mpr (.madeOf (.mapping _) (by simp))⟩
  have hrender : (ofCalls escapedCalls).render = .ok escapedDocuments := by
    rw [render, hstages, Fault.mapM_eq_ok]
    exact .cons rfl (.cons rfl .nil)
  have hfloat : ∀ document ∈ escapedDocuments, ¬ document.HasFloat := by
    simp [escapedDocuments, Json.HasFloat, Json.contains_object_iff, Json.contains_array_iff,
      Json.contains_leaf_iff]
  have hdepth : (Json.array escapedDocuments).depth < 128 := by decide
  exact ⟨hbuilt, hrender, hfloat, hdepth, renderInput_texts hbuilt hrender hfloat hdepth⟩

end Pipeline
end Aggregation
