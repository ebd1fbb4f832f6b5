import Aggregation.Value.Basic

/-!
# Equality of hosts, values and stages

Equality is structural: different variants are never equal, order and repetition
count. Only the leaves are looser than identity: floats compare numerically,
decimals whatever their scale, raw JSON without regard to the order of keys.
-/

namespace Aggregation

mutual

/-- Equality of host values. -/
def Host.equal : Host → Host → Bool
  | .value a, .value b => Value.equal a b
  | .boolean a, .boolean b => a == b
  | .integer a, .integer b => a == b
  | .unsigned a, .unsigned b => a == b
  | .float a, .float b => Binary64.equal a b
  | .decimal a, .decimal b => Decimal.equal a b
  | .string a, .string b => a == b
  | .date a, .date b => a == b
  | .sequence a, .sequence b => Host.equalItems a b
  | .mapping a, .mapping b => Host.equalEntries a b
  | .stage a, .stage b => Stage.equal a b
  | .null, .null => true
  | _, _ => false

/-- Equality of typed values. -/
def Value.equal : Value → Value → Bool
  | .boolean a, .boolean b => a == b
  | .number a, .number b => Number.equal a b
  | .integer a, .integer b => a == b
  | .string a, .string b => a == b
  | .date a, .date b => a == b
  | .tagged a k, .tagged b l => k == l && Coerced.equalItems a b
  | .document a, .document b => Json.equal (.object a) (.object b)
  | .map a, .map b => Coerced.equalEntries a b
  | .expression o a, .expression p b => o == p && Coerced.equalItems a b
  | _, _ => false

/-- Equality of coerced values. -/
def Coerced.equal : Coerced → Coerced → Bool
  | .typed a, .typed b => Value.equal a b
  | .unchanged a, .unchanged b => Host.equal a b
  | _, _ => false

/-- Equality of stages. -/
def Stage.equal : Stage → Stage → Bool
  | .addFields a, .addFields b => Coerced.equalEntries a b
  | .project a, .project b => Coerced.equalEntries a b
  | .matching a, .matching b => Coerced.equal a b
  | .group i a, .group j b => Json.equal i j && Coerced.equalEntries a b
  | .map a c, .map b d => Coerced.equal a b && Coerced.equal c d
  | .reduce a c e, .reduce b d f =>
    Coerced.equal a b && Coerced.equal c d && Coerced.equal e f
  | .filter a c, .filter b d => Coerced.equal a b && Coerced.equal c d
  | _, _ => false

/-- Host values are equal one by one. -/
def Host.equalItems : List Host → List Host → Bool
  | [], [] => true
  | a :: as, b :: bs => Host.equal a b && Host.equalItems as bs
  | _, _ => false

/-- Named host values are equal one by one, the names included. -/
def Host.equalEntries : List (String × Host) → List (String × Host) → Bool
  | [], [] => true
  | (k, a) :: as, (l, b) :: bs => k == l && Host.equal a b && Host.equalEntries as bs
  | _, _ => false

/-- Coerced values are equal one by one. -/
def Coerced.equalItems : List Coerced → List Coerced → Bool
  | [], [] => true
  | a :: as, b :: bs => Coerced.equal a b && Coerced.equalItems as bs
  | _, _ => false

/-- Named coerced values are equal one by one, the names included. -/
def Coerced.equalEntries : List (String × Coerced) → List (String × Coerced) → Bool
  | [], [] => true
  | (k, a) :: as, (l, b) :: bs => k == l && Coerced.equal a b && Coerced.equalEntries as bs
  | _, _ => false

end

/-! ## Element kinds -/

theorem Value.kind_eq_of_equal {v w : Value} (h : v.equal w = true) : v.kind = w.kind := by
  cases v <;> cases w <;> first | rfl | simp [equal] at h

theorem Coerced.kind?_eq_of_equal {c d : Coerced} (h : c.equal d = true) : c.kind? = d.kind? := by
  cases c with
  | typed v =>
    cases d with
    | typed w =>
      rw [equal] at h
      exact congrArg some (Value.kind_eq_of_equal h)
    | unchanged => simp [equal] at h
  | unchanged host =>
    cases d with
    | typed => simp [equal] at h
    | unchanged => rfl

/-- Equal items have the same element kind, so the tag tells nothing that the items do not. -/
theorem Coerced.elementKind?_eq {items items' : List Coerced}
    (h : Coerced.equalItems items items' = true) : elementKind? items = elementKind? items' := by
  cases items with
  | nil =>
    cases items' with
    | nil => rfl
    | cons => simp [equalItems] at h
  | cons item items =>
    cases items' with
    | nil => simp [equalItems] at h
    | cons item' items' =>
      rw [equalItems, Bool.and_eq_true] at h
      exact kind?_eq_of_equal h.1

/-- Arrays are equal when their items are. -/
theorem Value.equal_array (items items' : List Coerced) :
    (Value.array items).equal (.array items') = Coerced.equalItems items items' := by
  rw [Value.equal]
  cases h : Coerced.equalItems items items' with
  | false => rw [Bool.and_false]
  | true => rw [Coerced.elementKind?_eq h, beq_self_eq_true, Bool.true_and]

end Aggregation
