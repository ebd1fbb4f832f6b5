import Aggregation.Value.Basic

/-!
# Coercion

Every host value but null and a stage has a typed form. Integers stay integers,
floats and decimals become numbers, a nonempty string of ASCII digits becomes the
number it spells, containers are coerced throughout. Coercion never fails; what
has no typed form is kept unchanged.
-/

namespace Aggregation

/-- The value of a string: a number when it spells one in plain digits. -/
def Value.ofString (s : String) : Value :=
  if Digits.isNumeral s.toList then .number (.ofDigits s.toList) else .string s

/-- The value of an integer without a sign, a number only beyond the signed range. -/
def Value.ofUInt64 (n : UInt64) : Value :=
  ((Word.signed? n.toNat).map .integer).getD (.number (.unsigned n))

mutual

/-- The typed form of a host value, or the host value itself. -/
def Host.coerce : Host → Coerced
  | .value v => .typed v
  | .boolean b => .typed (.boolean b)
  | .integer n => .typed (.integer n)
  | .unsigned n => .typed (.ofUInt64 n)
  | .float x => .typed (.number (.ofBinary64 x))
  | .decimal d => .typed (.number (.ofDecimal d))
  | .string s => .typed (.ofString s)
  | .date i => .typed (.date i)
  | .sequence items => .typed (.array (Host.coerceItems items))
  | .mapping entries => .typed (.map (Host.coerceEntries entries))
  | .stage s => .unchanged (.stage s)
  | .null => .unchanged .null

/-- Coerce every item. -/
def Host.coerceItems : List Host → List Coerced
  | [] => []
  | item :: items => Host.coerce item :: Host.coerceItems items

/-- Coerce every value, keeping the names. -/
def Host.coerceEntries : List (String × Host) → List (String × Coerced)
  | [] => []
  | (name, host) :: entries => (name, Host.coerce host) :: Host.coerceEntries entries

end

@[simp] theorem Host.coerce_float (x : Binary64) :
    (Host.float x).coerce = .typed (.number (.ofBinary64 x)) := by
  rw [coerce]

@[simp] theorem Host.coerce_decimal (d : Decimal) :
    (Host.decimal d).coerce = .typed (.number (.ofDecimal d)) := by
  rw [coerce]

@[simp] theorem Host.coerceItems_eq_map (items : List Host) :
    Host.coerceItems items = items.map Host.coerce := by
  induction items <;> simp_all [Host.coerceItems]

@[simp] theorem Host.coerceEntries_eq_map (entries : Entries Host) :
    Host.coerceEntries entries = entries.map fun entry => (entry.1, entry.2.coerce) := by
  induction entries <;> simp_all [Host.coerceEntries]

end Aggregation
