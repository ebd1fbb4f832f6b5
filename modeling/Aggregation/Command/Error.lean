import Aggregation.Json.SyntaxError
import Aggregation.Pipeline.Decode

/-!
# Faults of the commands

A command fails on its input: there is none, it cannot be read, it is no JSON, it
is no pipeline, or what it describes has no wire form.
-/

namespace Aggregation.Command

/-- Why a command failed. -/
inductive Error where
  | render (cause : Aggregation.Error)
  | json (cause : Json.SyntaxError)
  | io (cause : String)
  | noInput
  | decode (cause : DecodeError)
  deriving DecidableEq, Repr

namespace Error

/-- The wording of a fault. -/
def message : Error → String
  | .render cause => cause.message
  | .json cause => "Invalid JSON: " ++ cause.message
  | .io cause => "IO error: " ++ cause
  | .noInput => "No input provided. Use --input or pipe JSON to stdin."
  | .decode cause => cause.message

/-- The wording of the underlying fault, where there is one of its own. -/
def source? : Error → Option String
  | .render cause => some cause.message
  | .json cause => some cause.message
  | .io cause => some cause
  | .noInput => none
  | .decode _ => none

end Error
end Aggregation.Command
