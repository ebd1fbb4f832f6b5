import Aggregation.Pipeline.Basic

/-!
# Pipelines over a model

A model is a record whose fields, in its placeholder, hold references instead of
data. A typed pipeline hands the placeholder to the functions that compute its
stages, so that stages name the fields of the model.
-/

namespace Aggregation

/-- A record type with an instance that holds references to its fields. -/
class Model (M : Type) where
  placeholder : M

/-- A pipeline whose stages are computed from a model. -/
structure TypedPipeline (M : Type) where
  pipeline : Pipeline
  model : M

namespace TypedPipeline

variable {M : Type}

/-- No stages, over the placeholder of the model. -/
def empty [Model M] : TypedPipeline M := ⟨.empty, Model.placeholder⟩

instance [Model M] : Inhabited (TypedPipeline M) := ⟨empty⟩

/-- Append a stage computed from the model. -/
def appendWith (p : TypedPipeline M) (stage : M → Stage) : TypedPipeline M :=
  { p with pipeline := p.pipeline.append (stage p.model) }

/-- Append an `$addFields` stage with one field computed from the model. -/
def addField (p : TypedPipeline M) (name : String) (host : M → Host) : TypedPipeline M :=
  { p with pipeline := p.pipeline.addFields (Fields.empty.insert name (host p.model)) }

/-- Append a `$project` stage with one field computed from the model. -/
def projectField (p : TypedPipeline M) (name : String) (host : M → Host) : TypedPipeline M :=
  { p with pipeline := p.pipeline.project (Fields.empty.insert name (host p.model)) }

/-- Append a `$match` stage with a query computed from the model. -/
def matchWith (p : TypedPipeline M) (query : M → Host) : TypedPipeline M :=
  { p with pipeline := p.pipeline.matchQuery (query p.model) }

/-- The documents of the stages, in order. -/
def render (p : TypedPipeline M) : Except Error (List Json) := p.pipeline.render

end TypedPipeline
end Aggregation
