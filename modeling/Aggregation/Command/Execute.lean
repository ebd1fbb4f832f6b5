import Aggregation.Command.Error
import Aggregation.Json.Reader

/-!
# The two commands

`render` rebuilds a pipeline given as JSON through the typed stages and renders
it; `coerce` shows the kind that one JSON value coerces to and its wire form.
-/

namespace Aggregation.Command

/-- Read a JSON text. -/
def readJson (text : String) : Except Error Json := (Json.read text).mapError .json

/-- Decode a pipeline and render it: every stage is decoded before the first is
rendered. -/
def rebuild (document : Json) : Except Error (List Json) := do
  let pipeline ← (Pipeline.ofJson document).mapError .decode
  pipeline.render.mapError .render

/-- Rebuild the pipeline of a JSON text. -/
def renderInput (input : Option String) : Except Error Json := do
  match input with
  | none => .error .noInput
  | some text =>
    let document ← readJson text
    let documents ← rebuild document
    return .array documents

/-- What one value coerces to. -/
structure CoercionReport where
  /-- None for a value that was left unchanged. -/
  kind? : Option Kind
  rendered : Json

/-- Coerce the value of a JSON text and render it. -/
def coerceInput (input : Option String) : Except Error CoercionReport := do
  match input with
  | none => .error .noInput
  | some text =>
    let value ← readJson text
    let coerced := (Host.ofJson value).coerce
    let rendered ← coerced.render.mapError .render
    return ⟨coerced.kind?, rendered⟩

end Aggregation.Command
