import Aggregation.Value.Builders
import Aggregation.Proofs.Documents
import Aggregation.Proofs.JsonTrees
import Mathlib.Logic.Relation

/-!
# How typed trees are represented

Values, coerced values, fields and stages can be written down that no caller ever gets: an array
with a wrong tag, a small number that is held without a sign, a `$group` with an accumulator
`_id`. What callers build is free of them, at every depth, whatever they build it from: every
operation keeps this of the nodes that it is given.

## Main definitions

* `Node` - what a caller holds; `Node.children`, `Node.HasPart` - what it is made of.
* `Node.Proper`, `Node.Sound` - how a node is represented, and how all of its parts are.
* `Node.Reachable` - what callers can build, in any number of steps.

## Main results

* `Node.Sound.coerce` - coercion keeps nodes sound.
* `Node.sound_groupBy`, `Node.sound_ofJson` - so do grouping and decoding.
* `Node.Reachable.sound` - everything that callers can build is sound.
* `Node.reachable_representation` - what that says of each part.
-/

namespace Aggregation

/-- The tag of an array: the kind of its first item. There is none exactly if there is no first
item or it is unchanged. -/
def Coerced.IsTag (items : List Coerced) (element : Option Kind) : Prop :=
  (∀ v rest, items = .typed v :: rest → element = some v.kind) ∧
    (element = none ↔ items = [] ∨ ∃ host rest, items = .unchanged host :: rest)

/-- The tag that an array gets when it is built. -/
theorem Coerced.isTag_elementKind? (items : List Coerced) : IsTag items (elementKind? items) := by
  cases items with
  | nil => simp [IsTag, elementKind?]
  | cons item items => cases item <;> simp [IsTag, elementKind?, kind?, toValue?]

/-- Held without a sign only beyond the signed range. -/
def Number.SignedIfPossible (number : Number) : Prop :=
  ∀ n, number = .unsigned n → Word.greatestSigned < n.toNat

/-- What a caller holds. -/
inductive Node where
  | host (h : Host)
  | value (v : Value)
  | coerced (c : Coerced)
  | fields (entries : Fields)
  | stage (s : Stage)

namespace Node

/-- What a node is directly made of. Raw JSON has no such parts. -/
def children : Node → List Node
  | .host (.value v) => [.value v]
  | .host (.sequence items) => items.map .host
  | .host (.mapping entries) => entries.map fun entry => .host entry.2
  | .host (.stage s) => [.stage s]
  | .host _ => []
  | .value (.tagged items _) => items.map .coerced
  | .value (.map entries) => entries.map fun entry => .coerced entry.2
  | .value (.expression _ operands) => operands.map .coerced
  | .value _ => []
  | .coerced (.typed v) => [.value v]
  | .coerced (.unchanged h) => [.host h]
  | .fields entries => entries.map fun entry => .coerced entry.2
  | .stage (.addFields added) => [.fields added]
  | .stage (.project projection) => [.fields projection]
  | .stage (.matching query) => [.coerced query]
  | .stage (.group _ accumulators) => [.fields accumulators]
  | .stage (.map input body) => [.coerced input, .coerced body]
  | .stage (.reduce input initialValue body) =>
    [.coerced input, .coerced initialValue, .coerced body]
  | .stage (.filter input condition) => [.coerced input, .coerced condition]

/-- The second node is the first one or a part of it, at whatever depth. -/
def HasPart (node part : Node) : Prop :=
  Relation.ReflTransGen (fun node child => child ∈ node.children) node part

/-- How a node is represented, apart from what it is made of. Only null and stages stay unchanged,
an array has its tag, a number is held without a sign only beyond the signed range, and no
accumulator has the name of the group id. -/
def Proper : Node → Prop
  | .coerced (.unchanged h) => h = .null ∨ ∃ s, h = .stage s
  | .value (.tagged items element) => Coerced.IsTag items element
  | .value (.number n) => n.SignedIfPossible
  | .stage (.group _ accumulators) => "_id" ∉ Entries.names accumulators
  | _ => True

/-- All parts of a node are proper, the node itself included. -/
def Sound (node : Node) : Prop := ∀ part, node.HasPart part → part.Proper

/-- What callers can build: host values, what they are coerced to, typed values, fields and stages,
also from JSON, and the parts of what they built. -/
inductive Reachable : Node → Prop
  | boolean (b : Bool) : Reachable (.host (.boolean b))
  | integer (n : Int64) : Reachable (.host (.integer n))
  | unsigned (n : UInt64) : Reachable (.host (.unsigned n))
  | float (x : Binary64) : Reachable (.host (.float x))
  | decimal (d : Decimal) : Reachable (.host (.decimal d))
  | string (s : String) : Reachable (.host (.string s))
  | date (i : Instant) : Reachable (.host (.date i))
  | null : Reachable (.host .null)
  | json (j : Json) : Reachable (.host (.ofJson j))
  | sequence {items : List Host} : (∀ item ∈ items, Reachable (.host item)) →
    Reachable (.host (.sequence items))
  | mapping {entries : Entries Host} : (∀ entry ∈ entries, Reachable (.host entry.2)) →
    Reachable (.host (.mapping entries))
  | hostValue {v : Value} : Reachable (.value v) → Reachable (.host (.value v))
  | hostStage {s : Stage} : Reachable (.stage s) → Reachable (.host (.stage s))
  | hostCoerced {c : Coerced} : Reachable (.coerced c) → Reachable (.host (.ofCoerced c))
  | coerce {host : Host} : Reachable (.host host) → Reachable (.coerced host.coerce)
  | booleanValue (b : Bool) : Reachable (.value (.boolean b))
  | integerValue (n : Int64) : Reachable (.value (.integer n))
  | stringValue (s : String) : Reachable (.value (.string s))
  | dateValue (i : Instant) : Reachable (.value (.date i))
  | ofBinary64 (x : Binary64) : Reachable (.value (.ofBinary64 x))
  | ofDecimal (d : Decimal) : Reachable (.value (.ofDecimal d))
  | ofUInt64 (n : UInt64) : Reachable (.value (.number (.ofUInt64 n)))
  | ofTimestamp {text : String} {v : Value} : Value.ofTimestamp text = .ok v →
    Reachable (.value v)
  | document (entries : Entries Json) : Reachable (.value (.document entries))
  | fieldRef (path : String) : Reachable (.value (.fieldRef path))
  | variableRef (name : String) : Reachable (.value (.variableRef name))
  | ofItems {items : List Host} : (∀ item ∈ items, Reachable (.host item)) →
    Reachable (.value (.ofItems items))
  | ofEntries {entries : Entries Host} : (∀ entry ∈ entries, Reachable (.host entry.2)) →
    Reachable (.value (.ofEntries entries))
  | array {items : List Coerced} : (∀ item ∈ items, Reachable (.coerced item)) →
    Reachable (.value (.array items))
  | expression (operator : Operator) {operands : List Coerced} :
    (∀ operand ∈ operands, Reachable (.coerced operand)) →
    Reachable (.value (.expression operator operands))
  | combine (operator : Operator) {left : Value} {right : Host} : Reachable (.value left) →
    Reachable (.host right) → Reachable (.value (.combine operator left right))
  | noFields : Reachable (.fields .empty)
  | insert (name : String) {host : Host} {fields : Fields} : Reachable (.fields fields) →
    Reachable (.host host) → Reachable (.fields (fields.insert name host))
  | remove (name : String) {fields : Fields} : Reachable (.fields fields) →
    Reachable (.fields (fields.remove name).2)
  | fieldsOf {entries : Entries Host} : (∀ entry ∈ entries, Reachable (.host entry.2)) →
    Reachable (.fields (.ofEntries entries))
  | addFields {fields : Fields} : Reachable (.fields fields) →
    Reachable (.stage (.addFields fields))
  | project {fields : Fields} : Reachable (.fields fields) → Reachable (.stage (.project fields))
  | ofQuery {query : Host} : Reachable (.host query) → Reachable (.stage (.ofQuery query))
  | groupBy (id : Json) {accumulators : Fields} : Reachable (.fields accumulators) →
    Reachable (.stage (.groupBy id accumulators))
  | mapOver {input body : Host} : Reachable (.host input) → Reachable (.host body) →
    Reachable (.stage (.mapOver input body))
  | reduceOver {input initialValue body : Host} : Reachable (.host input) →
    Reachable (.host initialValue) → Reachable (.host body) →
    Reachable (.stage (.reduceOver input initialValue body))
  | filterOver {input condition : Host} : Reachable (.host input) →
    Reachable (.host condition) → Reachable (.stage (.filterOver input condition))
  | decoded {j : Json} {p : Pipeline} {s : Stage} : Pipeline.ofJson j = .ok p → s ∈ p.toList →
    Reachable (.stage s)
  | part {node child : Node} : Reachable node → child ∈ node.children → Reachable child

/-! ## Soundness of each form -/

/-- A node is sound when it is proper and what it is made of is sound. -/
theorem sound_iff {node : Node} :
    node.Sound ↔ node.Proper ∧ ∀ child ∈ node.children, child.Sound := by
  constructor
  · intro h
    refine ⟨h node .refl, ?_⟩
    intro child hchild part hpart
    exact h part (.head hchild hpart)
  · intro h part hpart
    obtain ⟨hproper, hchildren⟩ := h
    rcases Relation.ReflTransGen.cases_head hpart with rfl | ⟨child, hchild, hrest⟩
    · exact hproper
    · exact hchildren child hchild part hrest

/-- A part of a sound node is sound. -/
theorem Sound.child {node child : Node} (h : node.Sound) (hchild : child ∈ node.children) :
    child.Sound := (sound_iff.mp h).2 child hchild

/-- Of a proper node, only what it is made of needs to be sound. -/
theorem sound_iff_of_children {node : Node} (children : List Node)
    (hchildren : node.children = children) (h : node.Proper) :
    node.Sound ↔ ∀ child ∈ children, child.Sound := by
  rw [sound_iff, hchildren, and_iff_right h]

theorem sound_of_leaf {node : Node} (h : node.Proper) (hchildren : node.children = []) :
    node.Sound := (sound_iff_of_children [] hchildren h).mpr (List.forall_mem_nil _)

/-- A proper node that is made of nodes of one form is sound exactly if these are. -/
theorem sound_iff_of_parts {α : Type} {node : Node} {parts : List α} {form : α → Node}
    (hchildren : node.children = parts.map form) (h : node.Proper) :
    node.Sound ↔ ∀ part ∈ parts, (form part).Sound := by
  rw [sound_iff_of_children (parts.map form) hchildren h, List.forall_mem_map]

/-- A proper node that is made of one node is sound exactly if that one is. -/
theorem sound_iff_of_child {node child : Node} (hchildren : node.children = [child])
    (h : node.Proper) : node.Sound ↔ child.Sound := by
  rw [sound_iff_of_children [child] hchildren h, List.forall_mem_singleton]

section Forms

variable {items : List Host} {hosts : Entries Host} {parts : List Coerced} {fields : Fields}
  {v : Value} {s : Stage} {host : Host} {operator : Operator}
  {query input body initialValue condition : Coerced}

@[simp] theorem sound_sequence :
    (Node.host (.sequence items)).Sound ↔ ∀ item ∈ items, (Node.host item).Sound :=
  sound_iff_of_parts rfl trivial

@[simp] theorem sound_mapping :
    (Node.host (.mapping hosts)).Sound ↔ ∀ entry ∈ hosts, (Node.host entry.2).Sound :=
  sound_iff_of_parts rfl trivial

@[simp] theorem sound_hostValue : (Node.host (.value v)).Sound ↔ (Node.value v).Sound :=
  sound_iff_of_child rfl trivial

@[simp] theorem sound_hostStage : (Node.host (.stage s)).Sound ↔ (Node.stage s).Sound :=
  sound_iff_of_child rfl trivial

@[simp] theorem sound_typed : (Node.coerced (.typed v)).Sound ↔ (Node.value v).Sound :=
  sound_iff_of_child rfl trivial

theorem sound_unchanged : (Node.coerced (.unchanged host)).Sound ↔
    (host = .null ∨ ∃ s, host = .stage s) ∧ (Node.host host).Sound :=
  sound_iff.trans (and_congr_right' List.forall_mem_singleton)

@[simp] theorem sound_array :
    (Node.value (.array parts)).Sound ↔ ∀ part ∈ parts, (Node.coerced part).Sound :=
  sound_iff_of_parts rfl (Coerced.isTag_elementKind? parts)

@[simp] theorem sound_map :
    (Node.value (.map fields)).Sound ↔ ∀ entry ∈ fields, (Node.coerced entry.2).Sound :=
  sound_iff_of_parts rfl trivial

@[simp] theorem sound_expression : (Node.value (.expression operator parts)).Sound ↔
    ∀ part ∈ parts, (Node.coerced part).Sound :=
  sound_iff_of_parts rfl trivial

@[simp] theorem sound_fields :
    (Node.fields fields).Sound ↔ ∀ entry ∈ fields, (Node.coerced entry.2).Sound :=
  sound_iff_of_parts rfl trivial

@[simp] theorem sound_addFields :
    (Node.stage (.addFields fields)).Sound ↔ (Node.fields fields).Sound :=
  sound_iff_of_child rfl trivial

@[simp] theorem sound_project :
    (Node.stage (.project fields)).Sound ↔ (Node.fields fields).Sound :=
  sound_iff_of_child rfl trivial

@[simp] theorem sound_matching :
    (Node.stage (.matching query)).Sound ↔ (Node.coerced query).Sound :=
  sound_iff_of_child rfl trivial

theorem sound_group {id : Json} : (Node.stage (.group id fields)).Sound ↔
    "_id" ∉ Entries.names fields ∧ (Node.fields fields).Sound :=
  sound_iff.trans (and_congr_right' List.forall_mem_singleton)

theorem sound_mapStage : (Node.stage (.map input body)).Sound ↔
    ∀ part ∈ [input, body], (Node.coerced part).Sound :=
  sound_iff_of_parts rfl trivial

theorem sound_reduce : (Node.stage (.reduce input initialValue body)).Sound ↔
    ∀ part ∈ [input, initialValue, body], (Node.coerced part).Sound :=
  sound_iff_of_parts rfl trivial

theorem sound_filter : (Node.stage (.filter input condition)).Sound ↔
    ∀ part ∈ [input, condition], (Node.coerced part).Sound :=
  sound_iff_of_parts rfl trivial

end Forms

end Node

/-! ## Numbers -/

namespace Number

theorem signedIfPossible_integral (n : Int64) : (integral n).SignedIfPossible := nofun

theorem signedIfPossible_floating (x : Binary64) : (floating x).SignedIfPossible := nofun

theorem signedIfPossible_unsigned {n : UInt64} (h : 2 ^ 63 ≤ n.toNat) :
    (unsigned n).SignedIfPossible := by
  intro m hm
  cases hm
  simp only [Word.greatestSigned]
  omega

theorem signedIfPossible_of_signed? {n : UInt64} (h : Word.signed? n.toNat = none) :
    (unsigned n).SignedIfPossible := by
  have hbounds := Word.signed?_eq_none_iff.mp h
  exact signedIfPossible_unsigned (by omega)

theorem signedIfPossible_ofInt? {n : ℤ} {number : Number} (h : ofInt? n = some number) :
    number.SignedIfPossible := by
  unfold ofInt? at h
  split at h
  · cases h
    exact signedIfPossible_integral _
  · rename_i hsigned hunsigned
    cases h
    rw [← Word.toNat_of_unsigned? hunsigned] at hsigned
    exact signedIfPossible_of_signed? hsigned
  · contradiction

theorem signedIfPossible_ofBinary64 (x : Binary64) : (ofBinary64 x).SignedIfPossible := by
  obtain ⟨n, hx, hn, heq⟩ | ⟨n, hx, hn, heq⟩ | ⟨-, heq⟩ := ofBinary64_cases x
  · rw [heq]
    exact signedIfPossible_integral _
  · have hvalue := hx.toNat_toUInt64 (by omega) hn.2
    rw [heq]
    exact signedIfPossible_unsigned (by omega)
  · rw [heq]
    exact signedIfPossible_floating x

theorem signedIfPossible_ofUInt64 (n : UInt64) : (ofUInt64 n).SignedIfPossible := by
  rw [ofUInt64]
  cases h : Word.signed? n.toNat with
  | none => exact signedIfPossible_of_signed? h
  | some i => exact signedIfPossible_integral i

theorem signedIfPossible_ofDecimal (d : Decimal) : (ofDecimal d).SignedIfPossible := by
  rw [ofDecimal]
  cases h : d.toInt?.bind ofInt? with
  | none => exact signedIfPossible_floating _
  | some number =>
    obtain ⟨n, -, hnumber⟩ := Option.bind_eq_some_iff.mp h
    exact signedIfPossible_ofInt? hnumber

theorem signedIfPossible_ofDigits (digits : List Char) : (ofDigits digits).SignedIfPossible := by
  simp only [ofDigits]
  cases h : ofInt? (Digits.value digits) with
  | none =>
    rw [Option.getD_none]
    exact signedIfPossible_ofBinary64 _
  | some number =>
    rw [Option.getD_some]
    exact signedIfPossible_ofInt? h

end Number

namespace Node

/-! ## Coercion -/

theorem sound_number {n : Number} (h : n.SignedIfPossible) : (Node.value (.number n)).Sound :=
  sound_of_leaf h rfl

theorem sound_ofUInt64 (n : UInt64) : (Node.value (.ofUInt64 n)).Sound := by
  rw [Value.ofUInt64]
  cases h : Word.signed? n.toNat with
  | none => exact sound_number (Number.signedIfPossible_of_signed? h)
  | some i => exact sound_of_leaf trivial rfl

theorem sound_ofString (s : String) : (Node.value (.ofString s)).Sound := by
  rw [Value.ofString]
  split
  · exact sound_number (Number.signedIfPossible_ofDigits _)
  · exact sound_of_leaf trivial rfl

mutual

/-- **Coercion keeps nodes sound**, whatever the host value. -/
theorem Sound.coerce : (host : Host) → (Node.host host).Sound → (Node.coerced host.coerce).Sound
  | .value v, h => by
    rw [Host.coerce]
    exact sound_typed.mpr (sound_hostValue.mp h)
  | .boolean b, _ => by
    rw [Host.coerce]
    exact sound_typed.mpr (sound_of_leaf trivial rfl)
  | .integer n, _ => by
    rw [Host.coerce]
    exact sound_typed.mpr (sound_of_leaf trivial rfl)
  | .unsigned n, _ => by
    rw [Host.coerce]
    exact sound_typed.mpr (sound_ofUInt64 n)
  | .float x, _ => by
    rw [Host.coerce]
    exact sound_typed.mpr (sound_number (Number.signedIfPossible_ofBinary64 x))
  | .decimal d, _ => by
    rw [Host.coerce]
    exact sound_typed.mpr (sound_number (Number.signedIfPossible_ofDecimal d))
  | .string s, _ => by
    rw [Host.coerce]
    exact sound_typed.mpr (sound_ofString s)
  | .date i, _ => by
    rw [Host.coerce]
    exact sound_typed.mpr (sound_of_leaf trivial rfl)
  | .sequence items, h => by
    rw [Host.coerce]
    exact sound_typed.mpr (sound_array.mpr (Sound.coerceItems items (sound_sequence.mp h)))
  | .mapping entries, h => by
    rw [Host.coerce]
    exact sound_typed.mpr (sound_map.mpr (Sound.coerceEntries entries (sound_mapping.mp h)))
  | .stage s, h => by
    rw [Host.coerce]
    exact sound_unchanged.mpr ⟨.inr ⟨s, rfl⟩, h⟩
  | .null, h => by
    rw [Host.coerce]
    exact sound_unchanged.mpr ⟨.inl rfl, h⟩

theorem Sound.coerceItems : (items : List Host) → (∀ item ∈ items, (Node.host item).Sound) →
    ∀ part ∈ Host.coerceItems items, (Node.coerced part).Sound
  | [], _ => by simp [Host.coerceItems]
  | item :: items, h => by
    rw [Host.coerceItems, List.forall_mem_cons]
    rw [List.forall_mem_cons] at h
    exact ⟨Sound.coerce item h.1, Sound.coerceItems items h.2⟩

theorem Sound.coerceEntries : (entries : List (String × Host)) →
    (∀ entry ∈ entries, (Node.host entry.2).Sound) →
    ∀ entry ∈ Host.coerceEntries entries, (Node.coerced entry.2).Sound
  | [], _ => by simp [Host.coerceEntries]
  | (name, item) :: entries, h => by
    rw [Host.coerceEntries, List.forall_mem_cons]
    rw [List.forall_mem_cons] at h
    exact ⟨Sound.coerce item h.1, Sound.coerceEntries entries h.2⟩

end

theorem Sound.ofCoerced {c : Coerced} (h : (Node.coerced c).Sound) :
    (Node.host (.ofCoerced c)).Sound := by
  cases c with
  | typed v => exact sound_hostValue.mpr (sound_typed.mp h)
  | unchanged host => exact (sound_unchanged.mp h).2

theorem sound_combine (operator : Operator) {left : Value} {right : Host}
    (hleft : (Node.value left).Sound) (hright : (Node.host right).Sound) :
    (Node.value (.combine operator left right)).Sound := by
  rw [Value.combine, sound_expression]
  simp only [List.forall_mem_cons, sound_typed]
  exact ⟨hleft, hright.coerce, by simp⟩

theorem sound_ofTimestamp {text : String} {v : Value} (h : Value.ofTimestamp text = .ok v) :
    (Node.value v).Sound := by
  rw [Value.ofTimestamp] at h
  split at h
  · cases h
    exact sound_of_leaf trivial rfl
  · contradiction

/-! ## Fields and stages -/

theorem sound_insert {name : String} {host : Host} {fields : Fields}
    (hfields : (Node.fields fields).Sound) (hhost : (Node.host host).Sound) :
    (Node.fields (fields.insert name host)).Sound := by
  rw [sound_fields] at hfields ⊢
  intro entry hentry
  rcases List.mem_append.mp hentry with hold | hnew
  · exact hfields entry hold
  · obtain rfl := List.mem_singleton.mp hnew
    exact hhost.coerce

theorem sound_erase {name : String} {fields : Fields} (h : (Node.fields fields).Sound) :
    (Node.fields (Entries.erase name fields)).Sound := by
  rw [sound_fields] at h ⊢
  intro entry hentry
  exact h entry (Entries.mem_erase.mp hentry).1

theorem sound_fieldsOf {entries : Entries Host}
    (h : ∀ entry ∈ entries, (Node.host entry.2).Sound) :
    (Node.fields (.ofEntries entries)).Sound :=
  sound_fields.mpr (Sound.coerceEntries entries h)

theorem sound_ofQuery {query : Host} (h : (Node.host query).Sound) :
    (Node.stage (.ofQuery query)).Sound := sound_matching.mpr h.coerce

/-- **Grouping keeps nodes sound**: an accumulator with the name of the id is dropped, wherever the
fields come from. -/
theorem sound_groupBy (id : Json) {accumulators : Fields}
    (h : (Node.fields accumulators).Sound) :
    (Node.stage (.groupBy id accumulators)).Sound :=
  sound_group.mpr ⟨Entries.notMem_names_erase _ _, sound_erase h⟩

theorem sound_mapOver {input body : Host} (hinput : (Node.host input).Sound)
    (hbody : (Node.host body).Sound) : (Node.stage (.mapOver input body)).Sound :=
  sound_mapStage.mpr (by simp [hinput.coerce, hbody.coerce])

theorem sound_reduceOver {input initialValue body : Host} (hinput : (Node.host input).Sound)
    (hinitial : (Node.host initialValue).Sound) (hbody : (Node.host body).Sound) :
    (Node.stage (.reduceOver input initialValue body)).Sound :=
  sound_reduce.mpr (by simp [hinput.coerce, hinitial.coerce, hbody.coerce])

theorem sound_filterOver {input condition : Host} (hinput : (Node.host input).Sound)
    (hcondition : (Node.host condition).Sound) :
    (Node.stage (.filterOver input condition)).Sound :=
  sound_filter.mpr (by simp [hinput.coerce, hcondition.coerce])

/-! ## Decoding -/

theorem sound_null : (Node.host .null).Sound := sound_of_leaf trivial rfl

theorem sound_hostOfJson (j : Json) : (Node.host (.ofJson j)).Sound := by
  induction j with
  | null => exact sound_null
  | bool | string | float =>
    rw [Host.ofJson]
    exact sound_of_leaf trivial rfl
  | integer n =>
    rw [Host.ofJson, Host.ofInteger]
    split <;> exact sound_of_leaf trivial rfl
  | array items ih =>
    rw [Host.ofJson, Host.ofItems_eq_map, sound_sequence, List.forall_mem_map]
    exact ih
  | object entries ih =>
    rw [Host.ofJson, Host.ofEntries_eq_map, sound_mapping, List.forall_mem_map]
    exact ih

theorem sound_argument (name : String) (entries : Entries Json) :
    (Node.host (Stage.argument name entries)).Sound := by
  rw [Stage.argument]
  cases Entries.lookup? name entries with
  | none => exact sound_null
  | some j => exact sound_hostOfJson j

theorem sound_payloadFields (entries : Entries Json) :
    (Node.fields (Stage.payloadFields entries)).Sound := by
  rw [Stage.payloadFields, Host.ofEntries_eq_map]
  apply sound_fieldsOf
  rw [List.forall_mem_map]
  intro entry _
  exact sound_hostOfJson entry.2

theorem sound_stageOfEntries (keyword : Keyword) (entries : Entries Json) :
    (Node.stage (.ofEntries keyword entries)).Sound := by
  cases keyword with
  | addFields => exact sound_addFields.mpr (sound_payloadFields entries)
  | project => exact sound_project.mpr (sound_payloadFields entries)
  | matching => exact sound_ofQuery (sound_hostOfJson _)
  | group => exact sound_groupBy _ (sound_payloadFields _)
  | map => exact sound_mapOver (sound_argument _ entries) (sound_argument _ entries)
  | reduce =>
    exact sound_reduceOver (sound_argument _ entries) (sound_argument _ entries)
      (sound_argument _ entries)
  | filter => exact sound_filterOver (sound_argument _ entries) (sound_argument _ entries)

theorem sound_stageOfJson {document : Json} {s : Stage} (h : Stage.ofJson document = .ok s) :
    (Node.stage s).Sound := by
  obtain ⟨keyword, payload, -, hpayload⟩ := Stage.ofJson_eq_ok_iff.mp h
  obtain ⟨-, rfl⟩ | ⟨entries, -, rfl⟩ := Stage.ofPayload_eq_ok_iff.mp hpayload
  · exact sound_ofQuery (sound_hostOfJson payload)
  · exact sound_stageOfEntries keyword entries

/-- **Decoding gives sound stages.** -/
theorem sound_ofJson {j : Json} {p : Pipeline} (h : Pipeline.ofJson j = .ok p) {s : Stage}
    (hs : s ∈ p.toList) : (Node.stage s).Sound := by
  by_cases hj : ∃ documents, j = .array documents
  · obtain ⟨documents, rfl⟩ := hj
    obtain ⟨stages, hstages, hchains⟩ := Pipeline.chains_of_ofJson h
    rw [hchains.toList_eq] at hs
    obtain ⟨document, -, hdocument⟩ :=
      Fault.exists_mem_of_forall₂ (Fault.mapM_eq_ok.mp hstages).flip hs
    exact sound_stageOfJson hdocument
  · push Not at hj
    rw [Pipeline.ofJson_of_not_array hj] at h
    contradiction

/-! ## What callers can build -/

/-- **Everything that callers can build is sound**, by induction on the steps that build it. -/
theorem Reachable.sound {node : Node} (h : node.Reachable) : node.Sound := by
  induction h with
  | boolean | integer | unsigned | float | decimal | string | date =>
    exact sound_of_leaf trivial rfl
  | null => exact sound_null
  | json j => exact sound_hostOfJson j
  | sequence _ ih => exact sound_sequence.mpr ih
  | mapping _ ih => exact sound_mapping.mpr ih
  | hostValue _ ih => exact sound_hostValue.mpr ih
  | hostStage _ ih => exact sound_hostStage.mpr ih
  | hostCoerced _ ih => exact ih.ofCoerced
  | coerce _ ih => exact ih.coerce
  | booleanValue | integerValue | stringValue | dateValue | document | fieldRef | variableRef =>
    exact sound_of_leaf trivial rfl
  | ofBinary64 x => exact sound_number (Number.signedIfPossible_ofBinary64 x)
  | ofDecimal d => exact sound_number (Number.signedIfPossible_ofDecimal d)
  | ofUInt64 n => exact sound_number (Number.signedIfPossible_ofUInt64 n)
  | ofTimestamp h => exact sound_ofTimestamp h
  | ofItems _ ih => exact sound_array.mpr (Sound.coerceItems _ ih)
  | ofEntries _ ih => exact sound_map.mpr (Sound.coerceEntries _ ih)
  | array _ ih => exact sound_array.mpr ih
  | expression operator _ ih => exact sound_expression.mpr ih
  | combine operator _ _ hleft hright => exact sound_combine operator hleft hright
  | noFields => exact sound_of_leaf trivial rfl
  | insert name _ _ hfields hhost => exact sound_insert hfields hhost
  | remove name _ ih => exact sound_erase ih
  | fieldsOf _ ih => exact sound_fieldsOf ih
  | addFields _ ih => exact sound_addFields.mpr ih
  | project _ ih => exact sound_project.mpr ih
  | ofQuery _ ih => exact sound_ofQuery ih
  | groupBy id _ ih => exact sound_groupBy id ih
  | mapOver _ _ hinput hbody => exact sound_mapOver hinput hbody
  | reduceOver _ _ _ hinput hinitial hbody => exact sound_reduceOver hinput hinitial hbody
  | filterOver _ _ hinput hcondition => exact sound_filterOver hinput hcondition
  | decoded h hs => exact sound_ofJson h hs
  | part _ hchild ih => exact ih.child hchild

/-- **How typed trees are represented.** At every depth of whatever callers can build, only null and
stages are unchanged; the tag of an array is the kind of its first item, and there is none exactly
if there is no first item or it is unchanged; a number is held without a sign only beyond the signed
range; and no accumulator of a `$group` is named `_id`. -/
theorem reachable_representation {node part : Node} (hnode : node.Reachable)
    (hpart : node.HasPart part) :
    (∀ host, part = .coerced (.unchanged host) → host = .null ∨ ∃ s, host = .stage s) ∧
      (∀ items element, part = .value (.tagged items element) →
        (∀ v rest, items = .typed v :: rest → element = some v.kind) ∧
          (element = none ↔ items = [] ∨ ∃ host rest, items = .unchanged host :: rest)) ∧
      (∀ n, part = .value (.number (.unsigned n)) → Word.greatestSigned < n.toNat) ∧
      (∀ id accumulators, part = .stage (.group id accumulators) →
        "_id" ∉ Entries.names accumulators) := by
  have hproper : part.Proper := hnode.sound part hpart
  refine ⟨?unchanged, ?array, ?number, ?group⟩
  case unchanged =>
    intro host h
    subst h
    exact hproper
  case array =>
    intro items element h
    subst h
    exact hproper
  case number =>
    intro n h
    subst h
    exact hproper n rfl
  case group =>
    intro id accumulators h
    subst h
    exact hproper

/-- An accumulator that has the name of the id, and one with the least number that needs to be
held without a sign. -/
def countedFields : Fields :=
  (Fields.empty.insert "_id" (.string "$a")).insert "n"
    (.sequence [.unsigned 0x8000000000000000, .null])

/-- The first accumulator is gone from the group, and the number and its array stand in it. -/
theorem reachable_representation_countedFields :
    let group := Stage.groupBy .null countedFields
    let number := Value.number (.unsigned 0x8000000000000000)
    let items : List Coerced := [.typed number, .unchanged .null]
    (Node.stage group).Reachable ∧
      ((Node.stage group).HasPart (.stage group) ∧
        ∀ id accumulators, group = .group id accumulators →
          "_id" ∉ Entries.names accumulators) ∧
      ((Node.stage group).HasPart (.value (.tagged items (some .number))) ∧
        ∀ v rest, items = .typed v :: rest → some Kind.number = some v.kind) ∧
      ((Node.stage group).HasPart (.value number) ∧
        Word.greatestSigned < (0x8000000000000000 : UInt64).toNat) := by
  intro group number items
  have hgroup : group = .group .null [("n", .typed (.array items))] := by
    simp [group, countedFields, Stage.groupBy, Fields.insert, Fields.empty, Entries.erase, items,
      number, Host.coerce, Value.ofUInt64, Word.signed?]
  have hreachable : (Node.stage group).Reachable := by
    have hitems : Reachable (.host (.sequence [.unsigned 0x8000000000000000, .null])) := by
      apply Reachable.sequence
      simp only [List.forall_mem_cons]
      exact ⟨.unsigned _, .null, List.forall_mem_nil _⟩
    exact .groupBy .null (.insert "n" (.insert "_id" .noFields (.string "$a")) hitems)
  have harray : (Node.stage group).HasPart (.value (.array items)) := by
    rw [hgroup]
    exact .head (List.mem_singleton_self _) (.head (List.mem_singleton_self _)
      (.single (List.mem_singleton_self _)))
  have hnumber : (Node.stage group).HasPart (.value number) :=
    (harray.tail List.mem_cons_self).tail (List.mem_singleton_self _)
  refine ⟨hreachable, ⟨.refl, ?_⟩, ⟨harray, ?_⟩, hnumber, ?_⟩
  · intro id accumulators h
    exact (reachable_representation hreachable .refl).2.2.2 id accumulators (congrArg _ h)
  · exact ((reachable_representation hreachable harray).2.1 items _ rfl).1
  · exact (reachable_representation hreachable hnumber).2.2.1 _ rfl

end Node
end Aggregation
