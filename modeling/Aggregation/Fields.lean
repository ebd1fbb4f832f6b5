import Aggregation.Coercion
import Aggregation.Rendering

/-!
# Fields

The fields of a stage are a log of writes: every write is kept in order, coerced
as it is added, and repetitions are collapsed only when the fields are rendered.
-/

namespace Aggregation

/-- Named coerced values, repetitions kept. -/
abbrev Fields := Entries Coerced

namespace Fields

/-- No fields. -/
def empty : Fields := []

/-- Add a field at the end. -/
def insert (name : String) (host : Host) (fields : Fields) : Fields :=
  fields ++ [(name, host.coerce)]

/-- Fields from named host values, in order. -/
def ofEntries (entries : Entries Host) : Fields := Host.coerceEntries entries

/-- Remove every entry of a name, and tell from the number of entries whether there was one. -/
def remove (name : String) (fields : Fields) : Bool × Fields :=
  let kept := Entries.erase name fields
  (kept.length != fields.length, kept)

/-- The document that the fields write. -/
def render (fields : Fields) : Except Error (Entries Json) := do
  let entries ← Coerced.renderEntries fields
  return Entries.collapse entries

end Fields
end Aggregation
