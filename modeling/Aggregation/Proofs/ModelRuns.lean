import Aggregation.Pipeline.Typed
import Aggregation.Proofs.Chain

/-!
# Runs of the builder over a model

A call over a model hands the placeholder to a function and appends what comes back, as the
builder without a model does with the same value. The model is never written, so what one
function returns cannot reach another, and the pipeline within goes through the same states as
one that is built from the values. So the two builders may be exchanged at any point of a run.

## Main definitions

* `TypedCall` - the calls over a model, with `TypedPipeline.ofCalls` for a run of them.
* `TypedCall.untyped` - the call with the value that its function gives for a model.

## Main results

* `TypedPipeline.foldl_apply` - a run from any state on, call by call.
* `TypedPipeline.ofCalls_simulates` - the simulation, for every prefix of a run.
-/

namespace Aggregation

variable {M : Type}

/-- A call of the builder over a model. -/
inductive TypedCall (M : Type) where
  | addField (name : String) (host : M → Host)
  | projectField (name : String) (host : M → Host)
  | matchWith (query : M → Host)
  | appendWith (stage : M → Stage)

namespace TypedCall

/-- What a call does to a pipeline over a model. -/
def apply (p : TypedPipeline M) : TypedCall M → TypedPipeline M
  | .addField name host => p.addField name host
  | .projectField name host => p.projectField name host
  | .matchWith query => p.matchWith query
  | .appendWith stage => p.appendWith stage

/-- The call of the builder without a model, with the value that the function gives. -/
def untyped (model : M) : TypedCall M → Call
  | .addField name host => .addFields (Fields.empty.insert name (host model))
  | .projectField name host => .project (Fields.empty.insert name (host model))
  | .matchWith query => .matchQuery (query model)
  | .appendWith stage => .append (stage model)

/-- Whatever the call, it hands on the model and acts on the pipeline within alone. -/
theorem apply_eq (p : TypedPipeline M) (call : TypedCall M) :
    apply p call = ⟨Call.apply p.pipeline (call.untyped p.model), p.model⟩ := by
  cases call <;> rfl

/-- A field that is added is the only one of its stage. -/
theorem stage_addField (model : M) (name : String) (host : M → Host) :
    ((addField name host).untyped model).stage = .addFields [(name, (host model).coerce)] := rfl

end TypedCall

namespace TypedPipeline

/-- The typed pipeline that a run of calls makes. -/
def ofCalls [Model M] (calls : List (TypedCall M)) : TypedPipeline M :=
  calls.foldl TypedCall.apply empty

/-- **A run from any state on**: the model stays, and the pipeline within goes through the calls
with the values for that model. -/
theorem foldl_apply (p : TypedPipeline M) (calls : List (TypedCall M)) :
    calls.foldl TypedCall.apply p =
      ⟨(calls.map (TypedCall.untyped p.model)).foldl Call.apply p.pipeline, p.model⟩ := by
  induction calls generalizing p with
  | nil => rfl
  | cons call calls ih =>
    rw [List.foldl_cons, TypedCall.apply_eq, ih]
    rfl

variable [Model M]

theorem ofCalls_eq (calls : List (TypedCall M)) :
    ofCalls calls =
      ⟨Pipeline.ofCalls (calls.map (TypedCall.untyped Model.placeholder)), Model.placeholder⟩ :=
  foldl_apply empty calls

/-- **The builder over a model simulates the one without.** From the empty pipeline, which is the
default, every prefix of a run leaves the placeholder as the model, so the next function is
applied to it; the pipeline within is the one that the calls without a model make from the values
for the placeholder, with the same stages in the same order, as many of them, and the same
documents. It is handed out as it is, so calls without a model go on behind the stages that are
there. Fields that are added one by one make a stage each, also under one name. -/
theorem ofCalls_simulates (calls : List (TypedCall M)) (more : List Call) :
    let untyped := calls.map (TypedCall.untyped Model.placeholder)
    (default : TypedPipeline M) = empty ∧
    (∀ steps,
      let p := ofCalls (calls.take steps)
      let q := Pipeline.ofCalls (untyped.take steps)
      p.model = Model.placeholder ∧ p.pipeline = q ∧
        p.pipeline.toList = (untyped.take steps).map Call.stage ∧
        p.pipeline.size = min steps calls.length ∧ p.pipeline.size = q.size ∧
        p.render = q.render) ∧
    more.foldl Call.apply (ofCalls calls).pipeline = Pipeline.ofCalls (untyped ++ more) ∧
    (more.foldl Call.apply (ofCalls calls).pipeline).toList =
      untyped.map Call.stage ++ more.map Call.stage ∧
    (∀ fields : List (String × (M → Host)),
      (ofCalls (fields.map fun field => .addField field.1 field.2)).pipeline.toList =
        fields.map fun field =>
          Stage.addFields [(field.1, (field.2 Model.placeholder).coerce)]) := by
  intro untyped
  have hcontinue : more.foldl Call.apply (ofCalls calls).pipeline =
      Pipeline.ofCalls (untyped ++ more) := by
    rw [ofCalls_eq, Pipeline.ofCalls, Pipeline.ofCalls, List.foldl_append]
  refine ⟨rfl, fun steps => ?_, hcontinue, ?_, fun fields => ?_⟩
  · have hstate : ofCalls (calls.take steps) =
        ⟨Pipeline.ofCalls (untyped.take steps), Model.placeholder⟩ := by
      rw [ofCalls_eq, List.map_take]
    have hchains := Pipeline.chains_ofCalls (untyped.take steps)
    have hsize : (Pipeline.ofCalls (untyped.take steps)).size = min steps calls.length := by
      rw [Pipeline.size, hchains.size_eq, List.length_map, List.length_take, List.length_map]
    rw [hstate]
    exact ⟨rfl, rfl, hchains.toList_eq, hsize, rfl, rfl⟩
  · rw [hcontinue, (Pipeline.chains_ofCalls _).toList_eq, List.map_append]
  · rw [ofCalls_eq, (Pipeline.chains_ofCalls _).toList_eq, List.map_map, List.map_map]
    exact List.map_congr_left fun field _ => TypedCall.stage_addField _ _ _

end TypedPipeline
end Aggregation
