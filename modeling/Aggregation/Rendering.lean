import Aggregation.Instant.Timestamp
import Aggregation.Value.Basic

/-!
# Rendering

The wire form of a value is JSON. Parts are rendered in order and the first fault
ends the whole. A repeated name keeps its first place and its last value, yet
every value under it has to render. An expression is a document with its operator
as the only key, a stage one with its keyword.
-/

namespace Aggregation

/-- The wire form of an instant. -/
def Instant.render (i : Instant) : Json := .object [("$date", .string i.toTimestamp)]

/-- The document of a stage around its payload. -/
def Keyword.document (keyword : Keyword) (payload : Json) : Json :=
  .object [(keyword.symbol, payload)]

mutual

/-- The wire form of a value. -/
def Value.render : Value → Except Error Json
  | .boolean b => .ok (.bool b)
  | .number n => .ok n.render
  | .integer n => .ok (.integer n.toInt)
  | .string s => .ok (.string s)
  | .date i => .ok i.render
  | .tagged items _ => do
    let items ← Coerced.renderItems items
    return .array items
  | .document entries => .ok (.object entries)
  | .map entries => do
    let entries ← Coerced.renderEntries entries
    return .object (Entries.collapse entries)
  | .expression operator operands => do
    let operands ← Coerced.renderItems operands
    return .object [(operator.symbol, .array operands)]

/-- The wire form of a coerced value. What is unchanged has one only if it is a stage. -/
def Coerced.render : Coerced → Except Error Json
  | .typed v => Value.render v
  | .unchanged (.stage s) => do
    let payload ← Stage.payload s
    return s.keyword.document payload
  | .unchanged host => .error (.unrenderable host.type)

/-- The payload of a stage, without its keyword. -/
def Stage.payload : Stage → Except Error Json
  | .addFields fields => do
    let fields ← Coerced.renderEntries fields
    return .object (Entries.collapse fields)
  | .project fields => do
    let fields ← Coerced.renderEntries fields
    return .object (Entries.collapse fields)
  | .matching query => Coerced.render query
  | .group id accumulators => do
    let accumulators ← Coerced.renderEntries accumulators
    return .object (Entries.insertAll [("_id", id)] (Entries.collapse accumulators))
  | .map input body => do
    let input ← Coerced.render input
    let body ← Coerced.render body
    return .object [("input", input), ("in", body)]
  | .reduce input initialValue body => do
    let input ← Coerced.render input
    let initialValue ← Coerced.render initialValue
    let body ← Coerced.render body
    return .object [("input", input), ("initialValue", initialValue), ("in", body)]
  | .filter input condition => do
    let input ← Coerced.render input
    let condition ← Coerced.render condition
    return .object [("input", input), ("cond", condition)]

/-- Render every item. -/
def Coerced.renderItems : List Coerced → Except Error (List Json)
  | [] => .ok []
  | item :: items => do
    let item ← Coerced.render item
    let items ← Coerced.renderItems items
    return item :: items

/-- Render every value, keeping the names and their repetitions. -/
def Coerced.renderEntries : List (String × Coerced) → Except Error (List (String × Json))
  | [] => .ok []
  | (name, value) :: entries => do
    let value ← Coerced.render value
    let entries ← Coerced.renderEntries entries
    return (name, value) :: entries

end

/-- The document of a stage: its payload under its keyword. -/
def Stage.render (s : Stage) : Except Error Json := do
  let payload ← s.payload
  return s.keyword.document payload

@[simp] theorem Value.render_document (entries : Entries Json) :
    (Value.document entries).render = .ok (.object entries) := by
  rw [Value.render]

@[simp] theorem Coerced.render_typed (v : Value) : (Coerced.typed v).render = v.render := by
  rw [Coerced.render]

@[simp] theorem Coerced.render_stage (s : Stage) :
    (Coerced.unchanged (.stage s)).render = s.render := by
  rw [Coerced.render, Stage.render]

end Aggregation
