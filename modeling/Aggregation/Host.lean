import Aggregation.Value.Basic

/-!
# What callers may supply

Host values from JSON, from integers without a sign, from optional values and
from what was coerced before. The coercions let a caller write the plain value
where a host value is expected.
-/

namespace Aggregation.Host

/-- An integer without a sign: signed where that range holds it. -/
def ofUInt64 (n : UInt64) : Host :=
  ((Word.signed? n.toNat).map .integer).getD (.unsigned n)

/-- A JSON integer; beyond both ranges of 64 bits, the nearest float. -/
def ofInteger (n : Int) : Host :=
  match Word.signed? n, Word.unsigned? n with
  | some i, _ => .integer i
  | none, some u => .unsigned u
  | none, none => .float (Binary64.ofInt n)

mutual

/-- The host value of a JSON value. -/
def ofJson : Json → Host
  | .null => .null
  | .bool b => .boolean b
  | .integer n => ofInteger n
  | .float x => .float x
  | .string s => .string s
  | .array items => .sequence (ofItems items)
  | .object entries => .mapping (ofEntries entries)

/-- The host values of JSON items. -/
def ofItems : List Json → List Host
  | [] => []
  | item :: items => ofJson item :: ofItems items

/-- The named host values of the entries of a JSON object. -/
def ofEntries : List (String × Json) → List (String × Host)
  | [] => []
  | (name, json) :: entries => (name, ofJson json) :: ofEntries entries

end

@[simp] theorem ofJson_float (x : Binary64) : ofJson (.float x) = .float x := by rw [ofJson]

@[simp] theorem ofItems_eq_map (items : List Json) : ofItems items = items.map ofJson := by
  induction items <;> simp_all [ofItems]

@[simp] theorem ofEntries_eq_map (entries : Entries Json) :
    ofEntries entries = entries.map fun entry => (entry.1, ofJson entry.2) := by
  induction entries <;> simp_all [ofEntries]

/-- What was typed goes in as a value, what was left unchanged as itself. -/
def ofCoerced : Coerced → Host
  | .typed v => .value v
  | .unchanged host => host

/-- An absent value is null. -/
def ofOption : Option Host → Host
  | some host => host
  | none => .null

instance : Coe Bool Host := ⟨.boolean⟩
instance : Coe Int64 Host := ⟨.integer⟩
instance : Coe UInt64 Host := ⟨ofUInt64⟩
instance : Coe Binary64 Host := ⟨.float⟩
instance : Coe Decimal Host := ⟨.decimal⟩
instance : Coe String Host := ⟨.string⟩
instance : Coe Instant Host := ⟨.date⟩
instance : Coe Json Host := ⟨ofJson⟩
instance : Coe Value Host := ⟨.value⟩
instance : Coe Coerced Host := ⟨ofCoerced⟩
instance : Coe Stage Host := ⟨.stage⟩

end Aggregation.Host
