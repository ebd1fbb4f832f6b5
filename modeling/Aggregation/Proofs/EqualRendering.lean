import Aggregation.Equality
import Aggregation.Proofs.NullFaults

/-!
# Equal values have equal wire forms

Equality of values is looser than identity at the leaves alone: signed zeros are equal, and so is
raw JSON whose keys stand in another order. Rendering respects it: equal values give the same
fault, or JSON values that are equal. Entries that are written into a document one after the
other give equal documents when they have the same names in the same order and equal values,
however often a name is repeated.

## Main definitions

* `SameOutcome` - the same fault, or related results.
* `Json.EqualEntry` - the same name with equal values.

## Main results

* `Json.equal_object` - documents of equal entries are equal.
* `Coerced.equal_render_of_equal` - rendering respects equality.
-/

namespace Aggregation

/-! ## Outcomes -/

/-- The outcomes are the same fault, or results that are related. -/
inductive SameOutcome {α β : Type} (R : α → β → Prop) : Except Error α → Except Error β → Prop
  | ok {a : α} {b : β} : R a b → SameOutcome R (.ok a) (.ok b)
  | error (e : Error) : SameOutcome R (.error e) (.error e)

namespace SameOutcome

variable {α β γ δ : Type} {R : α → β → Prop} {S : γ → δ → Prop} {x : Except Error α}
  {y : Except Error β}

/-- What is done with related results may look at the relation only. -/
theorem bind {f : α → Except Error γ} {g : β → Except Error δ} (h : SameOutcome R x y)
    (hfg : ∀ a b, R a b → SameOutcome S (f a) (g b)) : SameOutcome S (x >>= f) (y >>= g) := by
  cases h with
  | ok hab => exact hfg _ _ hab
  | error e => exact .error e

theorem map {f : α → γ} {g : β → δ} (h : SameOutcome R x y) (hfg : ∀ a b, R a b → S (f a) (g b)) :
    SameOutcome S (x >>= fun a => .ok (f a)) (y >>= fun b => .ok (g b)) :=
  h.bind fun a b hab => .ok (hfg a b hab)

theorem iff_exists : SameOutcome R x y ↔
    (∃ e, x = .error e ∧ y = .error e) ∨ ∃ a b, x = .ok a ∧ y = .ok b ∧ R a b := by
  constructor
  · rintro (hab | e)
    · exact .inr ⟨_, _, rfl, rfl, hab⟩
    · exact .inl ⟨e, rfl, rfl⟩
  · rintro (⟨e, rfl, rfl⟩ | ⟨a, b, rfl, rfl, hab⟩)
    · exact .error e
    · exact .ok hab

end SameOutcome

/-! ## Equal documents -/

namespace Json

/-- The JSON values are equal. -/
def Equal (j j' : Json) : Prop := j.equal j' = true

/-- The entries have the same name and equal values. -/
def EqualEntry (entry entry' : String × Json) : Prop :=
  entry.1 = entry'.1 ∧ entry.2.Equal entry'.2

theorem equalItems_of_forall₂ {items items' : List Json} (h : List.Forall₂ Equal items items') :
    equalItems items items' = true := by
  induction h with
  | nil => rw [equalItems]
  | cons hitem _ ih =>
    rw [equalItems, Bool.and_eq_true]
    exact ⟨hitem, ih⟩

theorem equal_array {items items' : List Json} (h : List.Forall₂ Equal items items') :
    (Json.array items).Equal (.array items') := by
  rw [Equal, equal]
  exact equalItems_of_forall₂ h

/-- Entries are found again in a document that has them all. -/
theorem equalEntries_of_forall {entries document : Entries Json}
    (h : ∀ entry ∈ entries, ∃ value, Entries.lookup? entry.1 document = some value ∧
      entry.2.Equal value) : equalEntries entries document = true := by
  induction entries with
  | nil => rw [equalEntries]
  | cons entry entries ih =>
    obtain ⟨hentry, hentries⟩ := List.forall_mem_cons.mp h
    obtain ⟨value, hlookup, hequal⟩ := hentry
    rw [equalEntries, hlookup, Bool.and_eq_true]
    exact ⟨hequal, ih hentries⟩

variable {document document' entries entries' : Entries Json}

/-- **Documents of equal entries are equal**, when their names are distinct. -/
theorem equal_object (hnames : (Entries.names entries').Nodup)
    (h : List.Forall₂ EqualEntry entries entries') :
    (Json.object entries).Equal (.object entries') := by
  rw [Equal, equal, h.length_eq, beq_self_eq_true, Bool.true_and]
  refine equalEntries_of_forall fun entry hmem => ?_
  obtain ⟨entry', hmem', hname, hequal⟩ := Fault.exists_mem_of_forall₂ h hmem
  rw [hname]
  exact ⟨entry'.2, Entries.lookup?_of_mem hnames hmem', hequal⟩

theorem equal_singleton_object {name : String} {j j' : Json} (h : j.Equal j') :
    (Json.object [(name, j)]).Equal (.object [(name, j')]) :=
  equal_object (by simp) (.cons ⟨rfl, h⟩ .nil)

/-- Writing equal values under a name keeps the entries of documents equal. -/
theorem forall₂_insert {entry entry' : String × Json}
    (h : List.Forall₂ EqualEntry document document') (hentry : EqualEntry entry entry') :
    List.Forall₂ EqualEntry (Entries.insert entry.1 entry.2 document)
      (Entries.insert entry'.1 entry'.2 document') := by
  obtain ⟨name, value⟩ := entry
  obtain ⟨name', value'⟩ := entry'
  obtain ⟨rfl, hvalue⟩ := hentry
  induction h with
  | nil => exact .cons ⟨rfl, hvalue⟩ .nil
  | @cons first first' rest rest' hfirst hrest ih =>
    obtain ⟨key, old⟩ := first
    obtain ⟨key', old'⟩ := first'
    obtain ⟨rfl, hold⟩ := hfirst
    by_cases hkey : key = name
    · rw [Entries.insert, Entries.insert, if_pos hkey, if_pos hkey]
      exact .cons ⟨rfl, hvalue⟩ hrest
    · rw [Entries.insert, Entries.insert, if_neg hkey, if_neg hkey]
      exact .cons ⟨rfl, hold⟩ ih

/-- So does writing equal entries one after the other, repeated names included. -/
theorem forall₂_insertAll (h : List.Forall₂ EqualEntry document document')
    (hentries : List.Forall₂ EqualEntry entries entries') :
    List.Forall₂ EqualEntry (Entries.insertAll document entries)
      (Entries.insertAll document' entries') := by
  induction hentries generalizing document document' with
  | nil => exact h
  | cons hentry _ ih => exact ih (forall₂_insert h hentry)

/-- **Equal entries written into equal documents give equal documents.** -/
theorem equal_insertAll (hnames : (Entries.names document').Nodup)
    (h : List.Forall₂ EqualEntry document document')
    (hentries : List.Forall₂ EqualEntry entries entries') :
    (Json.object (Entries.insertAll document entries)).Equal
      (.object (Entries.insertAll document' entries')) :=
  equal_object (Entries.names_insertAll_nodup entries' hnames) (forall₂_insertAll h hentries)

theorem equal_collapse (hentries : List.Forall₂ EqualEntry entries entries') :
    (Json.object (Entries.collapse entries)).Equal (.object (Entries.collapse entries')) :=
  equal_insertAll List.nodup_nil .nil hentries

end Json

/-! ## Leaves -/

/-- Equal floats are finite together. -/
theorem Binary64.isFinite_eq_of_equal {x y : Binary64} (h : x.equal y = true) :
    x.isFinite = y.isFinite := by
  obtain ⟨-, -, rfl | ⟨hx, hy⟩⟩ := equal_iff.mp h
  · rfl
  · simp only [isZero, Bool.and_eq_true, beq_iff_eq] at hx hy
    simp [isFinite, hx.1, hy.1]

/-- Equal numbers have equal wire forms. -/
theorem Number.render_equal {m n : Number} (h : m.equal n = true) : m.render.Equal n.render := by
  cases m with
  | integral m =>
    cases n with
    | integral n =>
      rw [equal, beq_iff_eq] at h
      rw [h, Json.Equal, render, Json.equal, beq_self_eq_true]
    | _ => simp [equal] at h
  | unsigned m =>
    cases n with
    | unsigned n =>
      rw [equal, beq_iff_eq] at h
      rw [h, Json.Equal, render, Json.equal, beq_self_eq_true]
    | _ => simp [equal] at h
  | floating x =>
    cases n with
    | floating y =>
      rw [equal] at h
      rw [render, render, Binary64.isFinite_eq_of_equal h]
      split
      · rw [Json.Equal, Json.equal, h]
      · rw [Json.Equal, Json.equal]
    | _ => simp [equal] at h

/-- Equal host values have the same type. -/
theorem Host.type_eq_of_equal {a b : Host} (h : a.equal b = true) : a.type = b.type := by
  cases a <;> cases b <;> first | rfl | simp [equal] at h

/-- What is unchanged and is no stage has no wire form. -/
theorem Coerced.render_unchanged {host : Host} (h : ∀ s, host ≠ .stage s) :
    (Coerced.unchanged host).render = .error (.unrenderable host.type) := by
  rw [render]
  exact h

/-! ## Values, coerced values and stages -/

/-- Stages of one keyword have the same outcome when their payloads do. -/
theorem Stage.sameOutcome_render {s t : Stage} (hkeyword : s.keyword = t.keyword)
    (h : SameOutcome Json.Equal s.payload t.payload) :
    SameOutcome Json.Equal s.render t.render := by
  rw [Stage.render, Stage.render, hkeyword]
  exact h.map fun _ _ hequal => Json.equal_singleton_object hequal

/-- Equal stages have the same keyword. -/
theorem Stage.keyword_eq_of_equal {s t : Stage} (h : s.equal t = true) :
    s.keyword = t.keyword := by
  cases s <;> cases t <;> first | rfl | simp [equal] at h

-- The induction is on the first of the two values; equality gives the second the same shape.
mutual

theorem Value.sameOutcome (v w : Value) (h : Value.equal v w = true) :
    SameOutcome Json.Equal v.render w.render := by
  cases v with
  | boolean | integer | string =>
    cases w <;> simp only [Value.equal, Bool.false_eq_true, beq_iff_eq] at h
    rw [h, Value.render]
    exact .ok (by simp [Json.Equal, Json.equal])
  | number m =>
    cases w <;> simp only [Value.equal, Bool.false_eq_true] at h
    rw [Value.render, Value.render]
    exact .ok (Number.render_equal h)
  | date i =>
    cases w <;> simp only [Value.equal, Bool.false_eq_true, beq_iff_eq] at h
    rw [h, Value.render]
    exact .ok (Json.equal_singleton_object (by simp [Json.Equal, Json.equal]))
  | tagged items =>
    cases w <;> simp only [Value.equal, Bool.false_eq_true, Bool.and_eq_true] at h
    rw [Value.render, Value.render]
    exact (Coerced.sameOutcome_items items _ h.2).map fun _ _ => Json.equal_array
  | document entries =>
    cases w <;> simp only [Value.equal, Bool.false_eq_true] at h
    rw [Value.render_document, Value.render_document]
    exact .ok h
  | map entries =>
    cases w <;> simp only [Value.equal, Bool.false_eq_true] at h
    rw [Value.render, Value.render]
    exact (Coerced.sameOutcome_entries entries _ h).map fun _ _ => Json.equal_collapse
  | expression operator operands =>
    cases w <;> simp only [Value.equal, Bool.false_eq_true, Bool.and_eq_true, beq_iff_eq] at h
    rw [h.1, Value.render, Value.render]
    exact (Coerced.sameOutcome_items operands _ h.2).map fun _ _ hitems =>
      Json.equal_singleton_object (Json.equal_array hitems)

theorem Coerced.sameOutcome (c d : Coerced) (h : Coerced.equal c d = true) :
    SameOutcome Json.Equal c.render d.render := by
  cases c with
  | typed v =>
    cases d with
    | typed w =>
      rw [Coerced.equal] at h
      rw [Coerced.render_typed, Coerced.render_typed]
      exact Value.sameOutcome v w h
    | unchanged => simp [Coerced.equal] at h
  | unchanged a =>
    cases d with
    | typed => simp [Coerced.equal] at h
    | unchanged b =>
      rw [Coerced.equal] at h
      have htype := Host.type_eq_of_equal h
      cases a with
      | stage s =>
        cases b with
        | stage t =>
          rw [Host.equal] at h
          rw [Coerced.render_stage, Coerced.render_stage]
          exact Stage.sameOutcome_render (Stage.keyword_eq_of_equal h)
            (Stage.sameOutcome_payload s t h)
        | _ => cases htype
      | _ =>
        have hstage : ∀ t, b ≠ .stage t := by
          rintro t rfl
          cases htype
        rw [Coerced.render_unchanged (by simp), Coerced.render_unchanged hstage, htype]
        exact .error _

theorem Stage.sameOutcome_payload (s t : Stage) (h : Stage.equal s t = true) :
    SameOutcome Json.Equal s.payload t.payload := by
  cases s with
  | addFields fields | project fields =>
    cases t <;> simp only [Stage.equal, Bool.false_eq_true] at h
    rw [Stage.payload, Stage.payload]
    exact (Coerced.sameOutcome_entries fields _ h).map fun _ _ => Json.equal_collapse
  | matching query =>
    cases t <;> simp only [Stage.equal, Bool.false_eq_true] at h
    rw [Stage.payload, Stage.payload]
    exact Coerced.sameOutcome query _ h
  | group id accumulators =>
    cases t <;> simp only [Stage.equal, Bool.false_eq_true, Bool.and_eq_true] at h
    rw [Stage.payload, Stage.payload]
    simp only [Entries.insertAll_collapse]
    exact (Coerced.sameOutcome_entries accumulators _ h.2).map fun _ _ =>
      Json.equal_insertAll (by simp) (.cons ⟨rfl, h.1⟩ .nil)
  | map first second | filter first second =>
    cases t <;> simp only [Stage.equal, Bool.false_eq_true, Bool.and_eq_true] at h
    rw [Stage.payload, Stage.payload]
    exact (Coerced.sameOutcome first _ h.1).bind fun _ _ hfirst =>
      (Coerced.sameOutcome second _ h.2).map fun _ _ hsecond =>
        Json.equal_object (by simp) (.cons ⟨rfl, hfirst⟩ (.cons ⟨rfl, hsecond⟩ .nil))
  | reduce input initialValue body =>
    cases t <;> simp only [Stage.equal, Bool.false_eq_true, Bool.and_eq_true] at h
    rw [Stage.payload, Stage.payload]
    exact (Coerced.sameOutcome input _ h.1.1).bind fun _ _ hinput =>
      (Coerced.sameOutcome initialValue _ h.1.2).bind fun _ _ hinitial =>
        (Coerced.sameOutcome body _ h.2).map fun _ _ hbody =>
          Json.equal_object (by simp)
            (.cons ⟨rfl, hinput⟩ (.cons ⟨rfl, hinitial⟩ (.cons ⟨rfl, hbody⟩ .nil)))

theorem Coerced.sameOutcome_items (items items' : List Coerced)
    (h : Coerced.equalItems items items' = true) :
    SameOutcome (List.Forall₂ Json.Equal) (Coerced.renderItems items)
      (Coerced.renderItems items') := by
  cases items with
  | nil =>
    cases items' with
    | nil =>
      rw [Coerced.renderItems]
      exact .ok .nil
    | cons => simp [Coerced.equalItems] at h
  | cons item items =>
    cases items' with
    | nil => simp [Coerced.equalItems] at h
    | cons item' items' =>
      rw [Coerced.equalItems, Bool.and_eq_true] at h
      rw [Coerced.renderItems, Coerced.renderItems]
      exact (Coerced.sameOutcome item item' h.1).bind fun _ _ hitem =>
        (Coerced.sameOutcome_items items items' h.2).map fun _ _ hitems => .cons hitem hitems

theorem Coerced.sameOutcome_entries (entries entries' : List (String × Coerced))
    (h : Coerced.equalEntries entries entries' = true) :
    SameOutcome (List.Forall₂ Json.EqualEntry) (Coerced.renderEntries entries)
      (Coerced.renderEntries entries') := by
  match entries, entries' with
  | [], [] =>
    rw [Coerced.renderEntries]
    exact .ok .nil
  | [], _ :: _ => simp [Coerced.equalEntries] at h
  | _ :: _, [] => simp [Coerced.equalEntries] at h
  | (name, value) :: entries, (name', value') :: entries' =>
    rw [Coerced.equalEntries, Bool.and_eq_true, Bool.and_eq_true, beq_iff_eq] at h
    rw [Coerced.renderEntries, Coerced.renderEntries, h.1.1]
    exact (Coerced.sameOutcome value value' h.1.2).bind fun _ _ hvalue =>
      (Coerced.sameOutcome_entries entries entries' h.2).map fun _ _ hentries =>
        .cons ⟨rfl, hvalue⟩ hentries

end

/-- **Rendering respects equality.** Coerced values that are equal give the same fault, or JSON
values that are equal: the order of keys apart, and signed zeros. So do values, and so do
stages. -/
theorem Coerced.equal_render_of_equal :
    (∀ c d : Coerced, c.equal d = true →
      (∃ e, c.render = .error e ∧ d.render = .error e) ∨
        ∃ r r', c.render = .ok r ∧ d.render = .ok r' ∧ r.equal r' = true) ∧
    (∀ v w : Value, v.equal w = true →
      (∃ e, v.render = .error e ∧ w.render = .error e) ∨
        ∃ r r', v.render = .ok r ∧ w.render = .ok r' ∧ r.equal r' = true) ∧
    (∀ s t : Stage, s.equal t = true →
      (∃ e, s.render = .error e ∧ t.render = .error e) ∨
        ∃ r r', s.render = .ok r ∧ t.render = .ok r' ∧ r.equal r' = true) := by
  refine ⟨fun c d h => ?_, fun v w h => ?_, fun s t h => ?_⟩
  · exact SameOutcome.iff_exists.mp (Coerced.sameOutcome c d h)
  · exact SameOutcome.iff_exists.mp (Value.sameOutcome v w h)
  · exact SameOutcome.iff_exists.mp (Stage.sameOutcome_render (Stage.keyword_eq_of_equal h)
      (Stage.sameOutcome_payload s t h))

/-- A `$group` by a document, with an accumulator that is written twice. -/
def writtenTwice (id : Entries Json) : Stage :=
  .group (.object id)
    [("n", .typed (.boolean true)), ("n", .typed (.array [.typed (.document id)]))]

/-- A negative zero and a null. -/
def zeroThenNull : Entries Json := [("a", .float (.zero true)), ("b", .null)]

/-- The other zero, and the keys the other way round. -/
def nullThenZero : Entries Json := [("b", .null), ("a", .float (.zero false))]

theorem Coerced.equal_render_of_equal_reordered :
    let s := writtenTwice zeroThenNull
    let t := writtenTwice nullThenZero
    (s.equal t = true ∧ ∃ r r', s.render = .ok r ∧ t.render = .ok r' ∧ r.equal r' = true) ∧
    (let v := Value.expression .add [.unchanged (.stage s)]
     let w := Value.expression .add [.unchanged (.stage t)]
     v.equal w = true ∧ ∃ r r', v.render = .ok r ∧ w.render = .ok r' ∧ r.equal r' = true) ∧
    (let c := Coerced.typed (.array [.unchanged (.stage s), .unchanged .null])
     let d := Coerced.typed (.array [.unchanged (.stage t), .unchanged .null])
     c.equal d = true ∧ ∃ e, c.render = .error e ∧ d.render = .error e) := by
  intro s t
  have hdocuments : (Json.object zeroThenNull).equal (.object nullThenZero) = true := by
    simp [zeroThenNull, nullThenZero, Json.equal, Json.equalEntries, Entries.lookup?,
      Binary64.equal, Binary64.isNaN, Binary64.isZero, Binary64.zero]
  have hstages : s.equal t = true := by
    simp only [s, t, writtenTwice, Stage.equal, Coerced.equalEntries, Coerced.equal,
      Value.equal_array]
    simp [Value.equal, Coerced.equal, Coerced.equalItems, hdocuments]
  have hvalues : (Value.expression .add [.unchanged (.stage s)]).equal
      (.expression .add [.unchanged (.stage t)]) = true := by
    simp [Value.equal, Coerced.equalItems, Coerced.equal, Host.equal, hstages]
  have hcoerced : (Coerced.typed (.array [.unchanged (.stage s), .unchanged .null])).equal
      (.typed (.array [.unchanged (.stage t), .unchanged .null])) = true := by
    rw [Coerced.equal, Value.equal_array]
    simp [Coerced.equalItems, Coerced.equal, Host.equal, hstages]
  obtain ⟨hc, hv, hs⟩ := Coerced.equal_render_of_equal
  refine ⟨⟨hstages, (hs _ _ hstages).resolve_left ?_⟩,
    ⟨hvalues, (hv _ _ hvalues).resolve_left ?_⟩, hcoerced, (hc _ _ hcoerced).resolve_right ?_⟩
  · rintro ⟨e, he, -⟩
    cases he
  · rintro ⟨e, he, -⟩
    cases he
  · rintro ⟨r, -, hr, -⟩
    cases hr

end Aggregation
