import Aggregation.Error
import Aggregation.Instant.Basic
import Aggregation.Keyword
import Aggregation.Number
import Aggregation.Operator

/-!
# Hosts, values and stages

A caller supplies a `Host`; coercion turns it into a typed `Value` or leaves it
unchanged. Values and stages hold their parts coerced, and a stage may stand in
the place of a value, so the four types are defined together.
-/

namespace Aggregation

/-- The variants of a typed value. -/
inductive Kind where
  | boolean
  | number
  | integer
  | string
  | date
  | array
  | document
  | map
  | expression
  deriving DecidableEq, Repr

namespace Kind

/-- The name of a kind. -/
def name : Kind → String
  | .boolean => "boolean"
  | .number => "number"
  | .integer => "integer"
  | .string => "string"
  | .date => "date"
  | .array => "array"
  | .document => "document"
  | .map => "map"
  | .expression => "expression"

instance : ToString Kind := ⟨name⟩

end Kind

mutual

/-- A value as supplied by a caller. -/
inductive Host where
  /-- Typed already. -/
  | value (v : Value)
  | boolean (b : Bool)
  | integer (n : Int64)
  | unsigned (n : UInt64)
  | float (x : Binary64)
  | decimal (d : Decimal)
  | string (s : String)
  | date (i : Instant)
  | sequence (items : List Host)
  | mapping (entries : List (String × Host))
  /-- A stage in the place of a value, such as a `$filter` as the input of a `$map`. -/
  | stage (s : Stage)
  | null

/-- A typed value. -/
inductive Value where
  | boolean (b : Bool)
  /-- What was supplied as a float, a decimal or a string of digits. -/
  | number (n : Number)
  /-- What was supplied as an integer. -/
  | integer (n : Int64)
  /-- A text, or the path of a field such as `"$price"`. -/
  | string (s : String)
  | date (i : Instant)
  /-- The items of an array, tagged with a kind when the array was built. -/
  | tagged (items : List Coerced) (element : Option Kind)
  /-- A raw document, which is rendered as it is. -/
  | document (entries : List (String × Json))
  /-- Named values in order; names may repeat. -/
  | map (entries : List (String × Coerced))
  /-- An operator with its operands in order. -/
  | expression (operator : Operator) (operands : List Coerced)

/-- What coercion makes of a host value. -/
inductive Coerced where
  | typed (v : Value)
  /-- Kept as supplied, since no rule applies. -/
  | unchanged (h : Host)

/-- A stage of a pipeline, with its parts coerced. -/
inductive Stage where
  | addFields (fields : List (String × Coerced))
  | project (fields : List (String × Coerced))
  | matching (query : Coerced)
  /-- The id is rendered as it is. -/
  | group (id : Json) (accumulators : List (String × Coerced))
  | map (input body : Coerced)
  | reduce (input initialValue body : Coerced)
  | filter (input condition : Coerced)

end

/-- The type of a host value. -/
def Host.type : Host → HostType
  | .value _ => .value
  | .boolean _ => .boolean
  | .integer _ => .integer
  | .unsigned _ => .unsigned
  | .float _ => .float
  | .decimal _ => .decimal
  | .string _ => .string
  | .date _ => .date
  | .sequence _ => .sequence
  | .mapping _ => .mapping
  | .stage _ => .stage
  | .null => .null

/-- The variant of a value. -/
def Value.kind : Value → Kind
  | .boolean _ => .boolean
  | .number _ => .number
  | .integer _ => .integer
  | .string _ => .string
  | .date _ => .date
  | .tagged .. => .array
  | .document _ => .document
  | .map _ => .map
  | .expression .. => .expression

/-- The keyword of a stage. -/
def Stage.keyword : Stage → Keyword
  | .addFields _ => .addFields
  | .project _ => .project
  | .matching _ => .matching
  | .group .. => .group
  | .map .. => .map
  | .reduce .. => .reduce
  | .filter .. => .filter

namespace Coerced

/-- The typed value, if there is one. -/
def toValue? : Coerced → Option Value
  | .typed v => some v
  | .unchanged _ => none

/-- The kind of the typed value, if there is one. -/
def kind? (c : Coerced) : Option Kind := c.toValue?.map Value.kind

/-- The element kind of an array: that of its first item, if that one is typed. -/
def elementKind? (items : List Coerced) : Option Kind := items.head?.bind kind?

end Coerced

/-- The array of some items, tagged with their element kind. -/
abbrev Value.array (items : List Coerced) : Value := .tagged items (Coerced.elementKind? items)

end Aggregation
