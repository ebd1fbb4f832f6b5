import Aggregation.Value.Basic

/-!
# Coalescing capabilities

A type of values may offer conversions: to keep a value that has a given kind and
take another one otherwise, to make a string of it, to branch. Every capability
that an instance does not provide is refused by name, so they can be added one at
a time; so far `Value` provides none.
-/

namespace Aggregation

/-- Conversions a type of values may provide. -/
class Coalesce (α : Type) where
  isBooleanOr : α → Value → Except Error Value :=
    fun _ _ => .error (.notSupported .booleanOr)
  isNumberOr : α → Value → Except Error Value :=
    fun _ _ => .error (.notSupported .numberOr)
  isIntegerOr : α → Value → Except Error Value :=
    fun _ _ => .error (.notSupported .integerOr)
  isStringOr : α → Value → Except Error Value :=
    fun _ _ => .error (.notSupported .stringOr)
  isDateOr : α → Value → Except Error Value :=
    fun _ _ => .error (.notSupported .dateOr)
  isArrayOr : α → Value → Except Error Value :=
    fun _ _ => .error (.notSupported .arrayOr)
  isDocumentOr : α → Value → Except Error Value :=
    fun _ _ => .error (.notSupported .documentOr)
  isMapOr : α → Value → Except Error Value :=
    fun _ _ => .error (.notSupported .mapOr)
  /-- The string that a value becomes. -/
  asString : α → Except Error Value :=
    fun _ => .error (.notSupported .asString)
  /-- The result of the first of the pairs of a condition and a result that holds. -/
  switchOn : α → List (Value × Value) → Except Error Value :=
    fun _ _ => .error (.notSupported .switchOn)

instance : Coalesce Value where

end Aggregation
