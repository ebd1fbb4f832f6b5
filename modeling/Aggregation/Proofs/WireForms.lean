import Aggregation.Proofs.Payloads
import Aggregation.Value.Builders

/-!
# Different values have different wire forms

Booleans, integers and strings, arrays, expressions and the stages that stand in the place of a
value keep all that they are made of when they are rendered: the form of a document tells what
it was written for, since no operator has the key of another operator or of a stage, and the
operands, the items and the arguments of a stage are all there, in order. The order in which
the keys of a document stand is not needed for that.

Maps, raw documents, dates and numbers are left out. A map of one entry may be the document of
an expression, and a number may be the integer that another value holds.

## Main definitions

* `Coerced.Plain` - the values in question, nested to any depth.
* `Coerced.WrittenAs` - the form in which each of them is written.

## Main results

* `Coerced.Plain.writtenAs` - a plain value is written in its form.
* `Value.eq_of_equal_render` - plain values with equal wire forms are the same.
-/

namespace Aggregation

/-- The parts of a stage that stands in the place of a value, in order. -/
def Stage.valueParts? : Stage → Option (List Coerced)
  | .matching query => some [query]
  | .map input body => some [input, body]
  | .reduce input initialValue body => some [input, initialValue, body]
  | .filter input condition => some [input, condition]
  | .addFields _ | .project _ | .group .. => none

namespace Coerced

/-- The value is made of booleans, integers and strings by arrays, expressions and the stages
`$match`, `$map`, `$reduce` and `$filter`. -/
inductive Plain : Coerced → Prop
  | boolean (b : Bool) : Plain (.typed (.boolean b))
  | integer (n : Int64) : Plain (.typed (.integer n))
  | string (s : String) : Plain (.typed (.string s))
  | array {items : List Coerced} : (∀ item ∈ items, Plain item) → Plain (.typed (.array items))
  | expression (operator : Operator) {operands : List Coerced} :
    (∀ operand ∈ operands, Plain operand) → Plain (.typed (.expression operator operands))
  | stage {s : Stage} {parts : List Coerced} : s.valueParts? = some parts →
    (∀ part ∈ parts, Plain part) → Plain (.unchanged (.stage s))

end Coerced

/-- The payload that the written parts of a stage make: the query of a `$match` as it is, the
arguments of another stage under their names. -/
def Keyword.payloadOf (keyword : Keyword) (written : List Json) : Json :=
  if keyword = .matching then written.headD .null else .object (keyword.arguments.zip written)

/-! ## Stages -/

namespace Stage

variable {s t : Stage} {parts : List Coerced}

/-- The payload is made of the written parts. -/
theorem payload_of_valueParts? (h : s.valueParts? = some parts) :
    s.payload = parts.mapM Coerced.render >>= fun written =>
      .ok (s.keyword.payloadOf written) := by
  cases s with
  | addFields | project | group => contradiction
  | matching query =>
    obtain rfl := Option.some.inj h
    rw [Stage.payload, List.mapM_cons, List.mapM_nil]
    cases query.render <;> rfl
  | map | reduce | filter =>
    obtain rfl := Option.some.inj h
    rw [Stage.payload]
    simp only [List.mapM_cons, List.mapM_nil, bind_assoc]
    rfl

/-- A `$match` has one part, another stage one for each argument. -/
theorem length_valueParts? (h : s.valueParts? = some parts) :
    parts.length = if s.keyword = .matching then 1 else s.keyword.arguments.length := by
  cases s with
  | addFields | project | group => contradiction
  | matching | map | reduce | filter =>
    obtain rfl := Option.some.inj h
    rfl

/-- A stage is its keyword and its parts. -/
theorem eq_of_valueParts? (hs : s.valueParts? = some parts) (ht : t.valueParts? = some parts)
    (hkeyword : s.keyword = t.keyword) : s = t := by
  cases s with
  | addFields | project | group => contradiction
  | matching | map | reduce | filter =>
    obtain rfl := Option.some.inj hs
    cases t <;> simp_all [valueParts?, keyword]

end Stage

/-- No operator has the key of a stage. -/
theorem Operator.symbol_ne_symbol (operator : Operator) (keyword : Keyword) :
    operator.symbol ≠ keyword.symbol := by
  cases operator <;> cases keyword <;> decide

/-! ## Equal JSON -/

namespace Json

/-- Equal documents of one entry have equal values under the same name. -/
theorem equal_singleton {name name' : String} {j j' : Json}
    (h : (Json.object [(name, j)]).equal (.object [(name', j')]) = true) :
    name = name' ∧ j.equal j' = true := by
  by_cases hname : name' = name
  · simpa [equal, equalEntries, Entries.lookup?, hname] using h
  · simp [equal, equalEntries, Entries.lookup?, hname] at h

/-- Of two lists under the same names, equal documents have equal values in the same order. -/
theorem equalItems_of_equalEntries {names : List String} {written written' : List Json}
    {document : Entries Json} (hwritten : written.length = names.length)
    (hwritten' : written'.length = names.length)
    (hlookup : ∀ entry ∈ names.zip written', Entries.lookup? entry.1 document = some entry.2)
    (h : equalEntries (names.zip written) document = true) :
    equalItems written written' = true := by
  induction names generalizing written written' with
  | nil =>
    obtain rfl := List.eq_nil_of_length_eq_zero hwritten
    obtain rfl := List.eq_nil_of_length_eq_zero hwritten'
    rfl
  | cons name names ih =>
    obtain ⟨r, written, rfl⟩ := List.exists_cons_of_length_eq_add_one hwritten
    obtain ⟨r', written', rfl⟩ := List.exists_cons_of_length_eq_add_one hwritten'
    rw [List.zip_cons_cons] at h hlookup
    obtain ⟨hfirst, hrest⟩ := List.forall_mem_cons.mp hlookup
    rw [equalEntries, hfirst, Bool.and_eq_true] at h
    rw [equalItems, Bool.and_eq_true]
    exact ⟨h.1, ih (Nat.succ.inj hwritten) (Nat.succ.inj hwritten') hrest h.2⟩

/-- Equal payloads of one keyword have equal parts. -/
theorem equalItems_of_equal_payloadOf {keyword : Keyword} {written written' : List Json}
    (hwritten : written.length = if keyword = .matching then 1 else keyword.arguments.length)
    (hwritten' : written'.length = if keyword = .matching then 1 else keyword.arguments.length)
    (h : (keyword.payloadOf written).equal (keyword.payloadOf written') = true) :
    equalItems written written' = true := by
  by_cases hkeyword : keyword = .matching
  · rw [if_pos hkeyword] at hwritten hwritten'
    obtain ⟨r, rfl⟩ := List.length_eq_one_iff.mp hwritten
    obtain ⟨r', rfl⟩ := List.length_eq_one_iff.mp hwritten'
    rw [Keyword.payloadOf, Keyword.payloadOf, if_pos hkeyword, if_pos hkeyword] at h
    rw [equalItems, equalItems, Bool.and_true]
    exact h
  · rw [if_neg hkeyword] at hwritten hwritten'
    rw [Keyword.payloadOf, Keyword.payloadOf, if_neg hkeyword, if_neg hkeyword, equal,
      Bool.and_eq_true] at h
    have hdistinct := keyword.arguments_nodup.sublist
      (Entries.names_zip_sublist keyword.arguments written')
    exact equalItems_of_equalEntries hwritten hwritten'
      (fun entry hmem => Entries.lookup?_of_mem hdistinct hmem) h.2

end Json

/-! ## Plain values -/

namespace Coerced

/-- How a plain value is written, given how its parts are. -/
inductive WrittenAs : Coerced → Json → Prop
  | boolean (b : Bool) : WrittenAs (.typed (.boolean b)) (.bool b)
  | integer (n : Int64) : WrittenAs (.typed (.integer n)) (.integer n.toInt)
  | string (s : String) : WrittenAs (.typed (.string s)) (.string s)
  | array {items : List Coerced} {written : List Json} : items.mapM render = .ok written →
    WrittenAs (.typed (.array items)) (.array written)
  | expression (operator : Operator) {operands : List Coerced} {written : List Json} :
    operands.mapM render = .ok written →
    WrittenAs (.typed (.expression operator operands)) (.object [(operator.symbol, .array written)])
  | stage {s : Stage} {parts : List Coerced} {written : List Json} :
    s.valueParts? = some parts → parts.mapM render = .ok written →
    WrittenAs (.unchanged (.stage s)) (s.keyword.document (s.keyword.payloadOf written))

variable {c d : Coerced} {r r' : Json}

/-- **A plain value is written in its form.** -/
theorem Plain.writtenAs (h : c.Plain) (hr : c.render = .ok r) : WrittenAs c r := by
  cases h with
  | boolean b =>
    rw [render_typed, Value.render_boolean] at hr
    cases hr
    exact .boolean b
  | integer n =>
    rw [render_typed, Value.render_integer] at hr
    cases hr
    exact .integer n
  | string s =>
    rw [render_typed, Value.render_string] at hr
    cases hr
    exact .string s
  | array hitems =>
    rw [render_typed, Value.render, renderItems_eq_mapM] at hr
    obtain ⟨written, hwritten, hr⟩ := Fault.bind_eq_ok.mp hr
    cases hr
    exact .array hwritten
  | expression operator hoperands =>
    rw [render_typed, Value.render, renderItems_eq_mapM] at hr
    obtain ⟨written, hwritten, hr⟩ := Fault.bind_eq_ok.mp hr
    cases hr
    exact .expression operator hwritten
  | stage hparts _ =>
    rw [render_stage, Stage.render, Stage.payload_of_valueParts? hparts, bind_assoc] at hr
    obtain ⟨written, hwritten, hr⟩ := Fault.bind_eq_ok.mp hr
    cases hr
    exact .stage hparts hwritten

/-- Lists of parts are told apart by their parts. -/
theorem eq_of_equalItems {parts parts' : List Coerced} {written written' : List Json}
    (htell : ∀ part ∈ parts, ∀ {part' : Coerced} {r r' : Json}, part'.Plain →
      part.render = .ok r → part'.render = .ok r' → r.equal r' = true → part = part')
    (hparts' : ∀ part ∈ parts', part.Plain) (hwritten : parts.mapM render = .ok written)
    (hwritten' : parts'.mapM render = .ok written')
    (h : Json.equalItems written written' = true) : parts = parts' := by
  rw [Fault.mapM_eq_ok] at hwritten hwritten'
  induction hwritten generalizing parts' written' with
  | nil =>
    cases hwritten' with
    | nil => rfl
    | cons => simp [Json.equalItems] at h
  | cons hr _ ih =>
    cases hwritten' with
    | nil => simp [Json.equalItems] at h
    | cons hr' hwritten' =>
      rw [Json.equalItems, Bool.and_eq_true] at h
      obtain ⟨htell, htells⟩ := List.forall_mem_cons.mp htell
      obtain ⟨hpart', hparts'⟩ := List.forall_mem_cons.mp hparts'
      rw [htell hpart' hr hr' h.1, ih htells hparts' hwritten' h.2]

/-- Equal documents of stages have equal keywords and equal parts. -/
theorem equalItems_of_equal_document {s t : Stage} {parts parts' : List Coerced}
    {written written' : List Json} (hs : s.valueParts? = some parts)
    (ht : t.valueParts? = some parts') (hwritten : parts.mapM render = .ok written)
    (hwritten' : parts'.mapM render = .ok written')
    (h : (s.keyword.document (s.keyword.payloadOf written)).equal
      (t.keyword.document (t.keyword.payloadOf written')) = true) :
    s.keyword = t.keyword ∧ Json.equalItems written written' = true := by
  obtain ⟨hsymbol, h⟩ := Json.equal_singleton h
  have hkeyword := Keyword.symbol_inj hsymbol
  have hlength := (Fault.mapM_eq_ok.mp hwritten).length_eq
  have hlength' := (Fault.mapM_eq_ok.mp hwritten').length_eq
  rw [Stage.length_valueParts? hs] at hlength
  rw [Stage.length_valueParts? ht, ← hkeyword] at hlength'
  rw [← hkeyword] at h
  exact ⟨hkeyword, Json.equalItems_of_equal_payloadOf hlength.symm hlength'.symm h⟩

/-- **Plain values with equal wire forms are the same**, by induction on the first. -/
theorem Plain.eq_of_equal (hc : c.Plain) (hd : d.Plain) (hr : c.render = .ok r)
    (hr' : d.render = .ok r') (h : r.equal r' = true) : c = d := by
  induction hc generalizing d r r' with
  | boolean b =>
    cases (Plain.boolean b).writtenAs hr
    cases hd.writtenAs hr' with
    | boolean => simp_all [Json.equal]
    | _ => simp [Json.equal, Keyword.document] at h
  | integer n =>
    cases (Plain.integer n).writtenAs hr
    cases hd.writtenAs hr' with
    | integer => simp_all [Json.equal, Int64.toInt_inj]
    | _ => simp [Json.equal, Keyword.document] at h
  | string s =>
    cases (Plain.string s).writtenAs hr
    cases hd.writtenAs hr' with
    | string => simp_all [Json.equal]
    | _ => simp [Json.equal, Keyword.document] at h
  | array hitems ih =>
    cases (Plain.array hitems).writtenAs hr with
    | array hwritten =>
    cases hd.writtenAs hr' with
    | array hwritten' =>
      cases hd with
      | array hitems' =>
        rw [Json.equal] at h
        rw [eq_of_equalItems ih hitems' hwritten hwritten' h]
    | _ => simp [Json.equal, Keyword.document] at h
  | expression operator hoperands ih =>
    cases (Plain.expression operator hoperands).writtenAs hr with
    | expression _ hwritten =>
    cases hd.writtenAs hr' with
    | expression operator' hwritten' =>
      cases hd with
      | expression _ hoperands' =>
        obtain ⟨hsymbol, h⟩ := Json.equal_singleton h
        rw [Json.equal] at h
        rw [Operator.symbol_inj hsymbol, eq_of_equalItems ih hoperands' hwritten hwritten' h]
    | stage => exact absurd (Json.equal_singleton h).1 (operator.symbol_ne_symbol _)
    | _ => simp [Json.equal] at h
  | stage hparts hplain ih =>
    cases (Plain.stage hparts hplain).writtenAs hr with
    | stage hs hwritten =>
    obtain rfl := Option.some.inj (hparts.symm.trans hs)
    cases hd.writtenAs hr' with
    | stage ht hwritten' =>
      cases hd with
      | stage hparts' hplain' =>
        obtain rfl := Option.some.inj (ht.symm.trans hparts')
        obtain ⟨hkeyword, h⟩ := equalItems_of_equal_document hs ht hwritten hwritten' h
        obtain rfl := eq_of_equalItems ih hplain' hwritten hwritten' h
        rw [Stage.eq_of_valueParts? hs ht hkeyword]
    | expression operator =>
      exact absurd (Json.equal_singleton h).1.symm (operator.symbol_ne_symbol _)
    | _ => simp [Json.equal, Keyword.document] at h

/-- Plain values are rendered, whatever is in them. -/
theorem Plain.exists_render (h : c.Plain) : ∃ r, c.render = .ok r := by
  induction h with
  | boolean b => exact ⟨_, by rw [render_typed, Value.render_boolean]⟩
  | integer n => exact ⟨_, by rw [render_typed, Value.render_integer]⟩
  | string s => exact ⟨_, by rw [render_typed, Value.render_string]⟩
  | array _ ih | expression _ _ ih =>
    obtain ⟨written, hwritten⟩ := Fault.mapM_succeeds_iff.mpr ih
    rw [render_typed, Value.render, renderItems_eq_mapM, hwritten]
    exact ⟨_, rfl⟩
  | stage hparts _ ih =>
    obtain ⟨written, hwritten⟩ := Fault.mapM_succeeds_iff.mpr ih
    rw [render_stage, Stage.render, Stage.payload_of_valueParts? hparts, hwritten]
    exact ⟨_, rfl⟩

end Coerced

/-- **Different plain values never have the same wire form.** They are rendered, and if what
they render is equal, whatever the order of keys, they are the same tree. -/
theorem Value.eq_of_equal_render {v w : Value} (hv : (Coerced.typed v).Plain)
    (hw : (Coerced.typed w).Plain) :
    ∃ r r', v.render = .ok r ∧ w.render = .ok r' ∧ (r.equal r' = true → v = w) := by
  obtain ⟨r, hr⟩ := hv.exists_render
  obtain ⟨r', hr'⟩ := hw.exists_render
  refine ⟨r, r', ?_, ?_, fun h => ?_⟩
  · rwa [Coerced.render_typed] at hr
  · rwa [Coerced.render_typed] at hr'
  · exact Coerced.typed.inj (hv.eq_of_equal hw hr hr' h)

/-- The comparison of a field with a `$filter`. -/
def filterBelow : Value :=
  .lessThan (.fieldRef "n") (.stage (.filterOver (.string "$xs") (.boolean true)))

/-- The same comparison the other way round. -/
def filterAbove : Value :=
  .expression .lessThan
    [(Host.stage (.filterOver (.string "$xs") (.boolean true))).coerce, .typed (.fieldRef "n")]

theorem Value.eq_of_equal_render_swapped :
    (Coerced.typed filterBelow).Plain ∧ (Coerced.typed filterAbove).Plain ∧
      ∃ r r', filterBelow.render = .ok r ∧ filterAbove.render = .ok r' ∧
        r.equal r' = false := by
  have hfilter : (Coerced.unchanged (.stage (.filterOver (.string "$xs") (.boolean true)))).Plain :=
    .stage rfl (List.forall_mem_cons.mpr
      ⟨.string "$xs", List.forall_mem_singleton.mpr (.boolean true)⟩)
  have hbelow : (Coerced.typed filterBelow).Plain :=
    .expression .lessThan (List.forall_mem_cons.mpr
      ⟨.string "$n", List.forall_mem_singleton.mpr hfilter⟩)
  have habove : (Coerced.typed filterAbove).Plain :=
    .expression .lessThan (List.forall_mem_cons.mpr
      ⟨hfilter, List.forall_mem_singleton.mpr (.string "$n")⟩)
  obtain ⟨r, r', hr, hr', hsame⟩ := Value.eq_of_equal_render hbelow habove
  have hne : filterBelow ≠ filterAbove := by
    intro h
    cases h
  exact ⟨hbelow, habove, r, r', hr, hr', Bool.eq_false_iff.mpr (mt hsame hne)⟩

end Aggregation
