import Aggregation.Fields

/-!
# Building stages

The arguments of a stage are host values and are coerced on construction; the id
of a `$group` is raw JSON and stays as it is. An accumulator named `_id` would
collide with the id and is dropped.
-/

namespace Aggregation.Stage

/-- A `$match` that keeps the documents satisfying a query. -/
def ofQuery (query : Host) : Stage := .matching query.coerce

/-- A `$group` under an id; accumulators named `_id` are dropped. -/
def groupBy (id : Json) (accumulators : Fields) : Stage :=
  .group id (Entries.erase "_id" accumulators)

/-- A `$map` that applies a body to every element of the input. -/
def mapOver (input body : Host) : Stage := .map input.coerce body.coerce

/-- A `$reduce` that folds the input into one value, from an initial one. -/
def reduceOver (input initialValue body : Host) : Stage :=
  .reduce input.coerce initialValue.coerce body.coerce

/-- A `$filter` that keeps the elements of the input for which a condition holds. -/
def filterOver (input condition : Host) : Stage := .filter input.coerce condition.coerce

end Aggregation.Stage
