/-!
# Faults of building and rendering

Coercion never fails. A fault arises when a value lacks a capability, when a host
value without a wire form is rendered, or when a text is no timestamp.
-/

namespace Aggregation

/-- The forms in which a caller may hold a value. -/
inductive HostType where
  | value
  | boolean
  | integer
  | unsigned
  | float
  | decimal
  | string
  | date
  | sequence
  | mapping
  | stage
  | null
  deriving DecidableEq, Repr

/-- The name of a host type. -/
def HostType.name : HostType → String
  | .value => "value"
  | .boolean => "boolean"
  | .integer => "integer"
  | .unsigned => "unsigned"
  | .float => "float"
  | .decimal => "decimal"
  | .string => "string"
  | .date => "date"
  | .sequence => "sequence"
  | .mapping => "mapping"
  | .stage => "stage"
  | .null => "null"

/-- Conversions that a type of values may offer. -/
inductive Capability where
  | booleanOr
  | numberOr
  | integerOr
  | stringOr
  | dateOr
  | arrayOr
  | documentOr
  | mapOr
  | asString
  | switchOn
  deriving DecidableEq, Repr

/-- The name of a capability. -/
def Capability.name : Capability → String
  | .booleanOr => "is_boolean_or"
  | .numberOr => "is_number_or"
  | .integerOr => "is_integer_or"
  | .stringOr => "is_string_or"
  | .dateOr => "is_date_or"
  | .arrayOr => "is_array_or"
  | .documentOr => "is_document_or"
  | .mapOr => "is_map_or"
  | .asString => "as_string"
  | .switchOn => "switch_on"

/-- Why a value could not be built or rendered. -/
inductive Error where
  | notSupported (capability : Capability)
  | unrenderable (type : HostType)
  | invalidDate (text : String)
  deriving DecidableEq, Repr

/-- The wording of a fault. -/
def Error.message : Error → String
  | .notSupported capability =>
    "Not supported: " ++ capability.name ++ " is not implemented for this value"
  | .unrenderable type => "Render error: " ++ type.name ++ " value has no wire representation"
  | .invalidDate text => "Invalid date: '" ++ text ++ "'"

end Aggregation
