import Aggregation.Pipeline.Basic
import Aggregation.Host

/-!
# Pipelines from JSON

A pipeline document is an array of objects with one key each, a stage keyword.
The payload of a `$match` may be anything; every other payload is an object. A
`$group` takes its id, null if absent, as it stands; `$map`, `$reduce` and
`$filter` take their named arguments, null for an absent one, and nothing else.
All stages are decoded before any of them is rendered.
-/

namespace Aggregation

/-- Why a JSON value is not a pipeline. -/
inductive DecodeError where
  | pipelineNotArray
  | stageNotObject
  | keyCount (count : Nat)
  | unknownKeyword (symbol : String)
  | payloadNotObject (keyword : Keyword)
  deriving DecidableEq, Repr

/-- The wording of a fault. -/
def DecodeError.message : DecodeError → String
  | .pipelineNotArray => "Invalid stage: pipeline must be a JSON array"
  | .stageNotObject => "Invalid stage: stage must be a JSON object"
  | .keyCount count => "Invalid stage: stage must have exactly one key, found " ++ toString count
  | .unknownKeyword symbol => "Unknown stage keyword: '" ++ symbol ++ "'"
  | .payloadNotObject keyword => "Invalid stage: " ++ keyword.symbol ++ " payload must be an object"

namespace Stage

/-- The host value under a name of a payload, null if there is none. -/
def argument (name : String) (entries : Entries Json) : Host :=
  ((Entries.lookup? name entries).map Host.ofJson).getD .null

/-- The fields that a payload lists. -/
def payloadFields (entries : Entries Json) : Fields := Fields.ofEntries (Host.ofEntries entries)

/-- The stage of a keyword with a payload that is an object. -/
def ofEntries (keyword : Keyword) (entries : Entries Json) : Stage :=
  match keyword with
  | .addFields => .addFields (payloadFields entries)
  | .project => .project (payloadFields entries)
  | .matching => ofQuery (.ofJson (.object entries))
  | .group =>
    groupBy ((Entries.lookup? "_id" entries).getD .null)
      (payloadFields (Entries.erase "_id" entries))
  | .map => mapOver (argument "input" entries) (argument "in" entries)
  | .reduce =>
    reduceOver (argument "input" entries) (argument "initialValue" entries)
      (argument "in" entries)
  | .filter => filterOver (argument "input" entries) (argument "cond" entries)

/-- The stage of a keyword with a payload. -/
def ofPayload (keyword : Keyword) (payload : Json) : Except DecodeError Stage :=
  match keyword, payload with
  | .matching, payload => .ok (ofQuery (.ofJson payload))
  | keyword, .object entries => .ok (ofEntries keyword entries)
  | keyword, _ => .error (.payloadNotObject keyword)

/-- The stage of a document with one key. -/
def ofJson : Json → Except DecodeError Stage
  | .object [(symbol, payload)] =>
    match Keyword.ofSymbol? symbol with
    | some keyword => ofPayload keyword payload
    | none => .error (.unknownKeyword symbol)
  | .object entries => .error (.keyCount entries.length)
  | _ => .error .stageNotObject

end Stage

/-- The pipeline of an array of stage documents. -/
def Pipeline.ofJson : Json → Except DecodeError Pipeline
  | .array documents =>
    documents.foldlM (fun pipeline document => do
      let stage ← Stage.ofJson document
      return pipeline.append stage) .empty
  | _ => .error .pipelineNotArray

end Aggregation
