import Aggregation.Coercion
import Aggregation.Instant.Timestamp

/-!
# Building values

Typed values from plain ones, references to fields and variables, and the nine
operators. The right operand of an operator is any host value and is coerced; the
left one is a value already.
-/

namespace Aggregation.Value

/-- A float, split on its fraction. -/
def ofBinary64 (x : Binary64) : Value := .number (.ofBinary64 x)

/-- A decimal, split on its fraction. -/
def ofDecimal (d : Decimal) : Value := .number (.ofDecimal d)

/-- The instant of an RFC 3339 timestamp. -/
def ofTimestamp (text : String) : Except Error Value :=
  match Instant.ofString? text with
  | some i => .ok (.date i)
  | none => .error (.invalidDate text)

/-- An array of host values, each coerced. -/
def ofItems (items : List Host) : Value := .array (Host.coerceItems items)

/-- Named host values, each coerced. -/
def ofEntries (entries : Entries Host) : Value := .map (Host.coerceEntries entries)

/-- The value under the path of a field: `"$price"`. -/
def fieldRef (path : String) : Value := .string ("$" ++ path)

/-- The value of a variable: `"$$this"`. -/
def variableRef (name : String) : Value := .string ("$$" ++ name)

/-- An operator between a value and a host value. -/
def combine (operator : Operator) (left : Value) (right : Host) : Value :=
  .expression operator [.typed left, right.coerce]

/-! ## Comparison -/

def equals (left : Value) (right : Host) : Value := combine .equal left right

def notEquals (left : Value) (right : Host) : Value := combine .notEqual left right

def greaterThan (left : Value) (right : Host) : Value := combine .greaterThan left right

def greaterOrEqual (left : Value) (right : Host) : Value := combine .greaterOrEqual left right

def lessThan (left : Value) (right : Host) : Value := combine .lessThan left right

def lessOrEqual (left : Value) (right : Host) : Value := combine .lessOrEqual left right

/-! ## Arithmetic -/

def modulo (left : Value) (right : Host) : Value := combine .modulo left right

def add (left : Value) (right : Host) : Value := combine .add left right

def multiply (left : Value) (right : Host) : Value := combine .multiply left right

end Aggregation.Value
