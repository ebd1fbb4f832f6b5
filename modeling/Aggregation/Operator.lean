/-!
# Expression operators

The nine operators that combine values, six comparisons and three arithmetic
ones, with the key under which each stands in a document.
-/

namespace Aggregation

/-- An operator of an expression. -/
inductive Operator where
  | equal
  | notEqual
  | greaterThan
  | greaterOrEqual
  | lessThan
  | lessOrEqual
  | modulo
  | add
  | multiply
  deriving DecidableEq, Repr

namespace Operator

/-- The key of the operator in a document. -/
def symbol : Operator → String
  | .equal => "$eq"
  | .notEqual => "$ne"
  | .greaterThan => "$gt"
  | .greaterOrEqual => "$gte"
  | .lessThan => "$lt"
  | .lessOrEqual => "$lte"
  | .modulo => "$mod"
  | .add => "$add"
  | .multiply => "$multiply"

/-- Whether the operator yields a truth value. -/
def isComparison : Operator → Bool
  | .modulo | .add | .multiply => false
  | _ => true

instance : ToString Operator := ⟨symbol⟩

theorem symbol_inj {o p : Operator} (h : o.symbol = p.symbol) : o = p := by
  cases o <;> cases p <;> simp_all [symbol]

end Operator
end Aggregation
