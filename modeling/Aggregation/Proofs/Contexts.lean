import Aggregation.Proofs.HostParts

/-!
# Host values in context

A frame is a place of a host value that another one fills, with all that stands around it; a
context is frames inside each other. What a part is coerced to, an integer or a number, a map,
a raw document or a stage, shows in its own wire form alone: parts with the same wire form may
be exchanged anywhere, and so may parts without one.

## Main definitions

* `Host.Frame`, `Host.Context` - the places that take a host value, and their nesting.
* `Agree` - two outcomes give the same result, or related faults.

## Main results

* `Host.Frame.agree_fill` - a single frame keeps agreement.
* `Host.Context.render_fill_congr` - rendering is compositional.
-/

namespace Aggregation

/-- The outcomes give the same result, or faults that are related. -/
inductive Agree {α : Type} (related : Error → Error → Prop) :
    Except Error α → Except Error α → Prop
  | ok (a : α) : Agree related (.ok a) (.ok a)
  | error {e e' : Error} : related e e' → Agree related (.error e) (.error e')

namespace Agree

variable {α β : Type} {related : Error → Error → Prop} {x y : Except Error α}

theorem refl (hrefl : ∀ e, related e e) (x : Except Error α) : Agree related x x := by
  cases x with
  | ok a => exact .ok a
  | error e => exact .error (hrefl e)

/-- What is done with results that agree may look at the results only. -/
theorem bind {f g : α → Except Error β} (h : Agree related x y)
    (hfg : ∀ a, Agree related (f a) (g a)) : Agree related (x >>= f) (y >>= g) := by
  cases h with
  | ok a => exact hfg a
  | error he => exact .error he

theorem map (f : α → β) (h : Agree related x y) :
    Agree related (x >>= fun a => .ok (f a)) (y >>= fun a => .ok (f a)) :=
  h.bind fun a => .ok (f a)

/-- Outcomes with equal faults agree when they are equal. -/
theorem eq_iff : Agree Eq x y ↔ x = y := by
  constructor
  · rintro (_ | ⟨rfl⟩) <;> rfl
  · rintro rfl
    exact refl (fun _ => rfl) x

/-- Whatever the faults, outcomes agree when they give the same result or none. -/
theorem toOption_eq_iff : Agree (fun _ _ => True) x y ↔ x.toOption = y.toOption := by
  constructor
  · rintro (_ | _) <;> rfl
  · intro h
    cases x with
    | ok a =>
      cases y with
      | ok b =>
        cases h
        exact .ok a
      | error => cases h
    | error =>
      cases y with
      | ok => cases h
      | error => exact .error trivial

end Agree

namespace Host

/-- A place that takes a host value, with all that stands around it. -/
inductive Frame where
  /-- An item of a sequence. -/
  | item (before after : List Host)
  /-- The value of an entry of a mapping. -/
  | entry (before : Entries Host) (name : String) (after : Entries Host)
  /-- An item of an array value. -/
  | arrayItem (before after : List Host)
  /-- The value of an entry of a map value. -/
  | mapEntry (before : Entries Host) (name : String) (after : Entries Host)
  /-- What a value is combined with by an operator. -/
  | rightOperand (operator : Operator) (left : Value)
  /-- An operand of an expression, among others that are coerced already. -/
  | operand (operator : Operator) (before after : List Coerced)
  | addedField (before : Entries Host) (name : String) (after : Entries Host)
  | projectedField (before : Entries Host) (name : String) (after : Entries Host)
  | query
  | accumulator (id : Json) (before : Entries Host) (name : String) (after : Entries Host)
  | mapInput (body : Host)
  | mapBody (input : Host)
  | reduceInput (initialValue body : Host)
  | reduceInitialValue (input body : Host)
  | reduceBody (input initialValue : Host)
  | filterInput (condition : Host)
  | filterCondition (input : Host)

/-- The host value with the place filled. A stage stands in the place of a value. -/
def Frame.fill (host : Host) : Frame → Host
  | .item before after => .sequence (before ++ host :: after)
  | .entry before name after => .mapping (before ++ (name, host) :: after)
  | .arrayItem before after => .value (.ofItems (before ++ host :: after))
  | .mapEntry before name after => .value (.ofEntries (before ++ (name, host) :: after))
  | .rightOperand operator left => .value (.combine operator left host)
  | .operand operator before after =>
    .value (.expression operator (before ++ host.coerce :: after))
  | .addedField before name after =>
    .stage (.addFields (Fields.ofEntries (before ++ (name, host) :: after)))
  | .projectedField before name after =>
    .stage (.project (Fields.ofEntries (before ++ (name, host) :: after)))
  | .query => .stage (.ofQuery host)
  | .accumulator id before name after =>
    .stage (.groupBy id (Fields.ofEntries (before ++ (name, host) :: after)))
  | .mapInput body => .stage (.mapOver host body)
  | .mapBody input => .stage (.mapOver input host)
  | .reduceInput initialValue body => .stage (.reduceOver host initialValue body)
  | .reduceInitialValue input body => .stage (.reduceOver input host body)
  | .reduceBody input initialValue => .stage (.reduceOver input initialValue host)
  | .filterInput condition => .stage (.filterOver host condition)
  | .filterCondition input => .stage (.filterOver input host)

/-- A host value with one place left open: frames inside each other, the outermost first. -/
abbrev Context := List Frame

/-- The host value with the open place filled. -/
def Context.fill (context : Context) (host : Host) : Host :=
  context.foldr (fun frame inner => frame.fill inner) host

@[simp] theorem Context.fill_nil (host : Host) : Context.fill [] host = host := rfl

@[simp] theorem Context.fill_cons (frame : Frame) (context : Context) (host : Host) :
    Context.fill (frame :: context) host = frame.fill (context.fill host) := rfl

/-! ## One frame -/

section Frame

variable {related : Error → Error → Prop} {a b : Host}

/-- Among fixed parts, one part may be exchanged. -/
theorem agree_mapM {α : Type} {render : α → Except Error Json} (hrefl : ∀ e, related e e)
    {x y : α} (h : Agree related (render x) (render y)) (before after : List α) :
    Agree related ((before ++ x :: after).mapM render) ((before ++ y :: after).mapM render) := by
  rw [List.mapM_append, List.mapM_append, List.mapM_cons, List.mapM_cons]
  refine (Agree.refl hrefl _).bind fun written => Agree.bind ?_ fun rest => .ok _
  exact h.bind fun _ => Agree.refl hrefl _

/-- The value of an entry may be exchanged, wherever its name stands again. -/
theorem agree_renderEntries (hrefl : ∀ e, related e e) (h : Agree related a.render b.render)
    (before : Entries Host) (name : String) (after : Entries Host) :
    Agree related (Coerced.renderEntries (coerceEntries (before ++ (name, a) :: after)))
      (Coerced.renderEntries (coerceEntries (before ++ (name, b) :: after))) := by
  have hnames : ∀ host : Host, Entries.names (before ++ (name, host) :: after) =
      Entries.names before ++ name :: Entries.names after := by simp
  rw [WrittenFrom.renderEntries_coerceEntries, WrittenFrom.renderEntries_coerceEntries,
    hnames, hnames, List.map_append, List.map_append, List.map_cons, List.map_cons]
  exact (agree_mapM hrefl h _ _).map _

/-- Operands and items may be exchanged one at a time. -/
theorem agree_renderItems (hrefl : ∀ e, related e e) (h : Agree related a.render b.render)
    (before after : List Coerced) :
    Agree related (Coerced.renderItems (before ++ a.coerce :: after))
      (Coerced.renderItems (before ++ b.coerce :: after)) := by
  have hcoerced : Agree related a.coerce.render b.coerce.render := h
  rw [Coerced.renderItems_eq_mapM, Coerced.renderItems_eq_mapM]
  exact agree_mapM hrefl hcoerced before after

/-- Stages of one keyword agree when their payloads do. -/
theorem agree_stage {s t : Stage} (hkeyword : s.keyword = t.keyword)
    (h : Agree related s.payload t.payload) :
    Agree related (Host.stage s).render (Host.stage t).render := by
  rw [render_stage, render_stage, Stage.render, Stage.render, hkeyword]
  exact h.map _

/-- Accumulators agree also when the exchanged one is dropped. -/
theorem agree_groupBy (hrefl : ∀ e, related e e) (h : Agree related a.render b.render)
    (id : Json) (before : Entries Host) (name : String) (after : Entries Host) :
    Agree related
      (Stage.groupBy id (Fields.ofEntries (before ++ (name, a) :: after))).payload
      (Stage.groupBy id (Fields.ofEntries (before ++ (name, b) :: after))).payload := by
  have herase : ∀ host : Host, Entries.erase "_id" (before ++ (name, host) :: after) =
      Entries.erase "_id" before ++ Entries.erase "_id" ((name, host) :: after) := by
    simp [Entries.erase]
  simp only [Stage.groupBy, Fields.ofEntries, erase_coerceEntries, Stage.payload, herase]
  refine Agree.map _ ?_
  by_cases hname : name = "_id"
  · subst hname
    rw [Entries.erase_cons_self, Entries.erase_cons_self]
    exact Agree.refl hrefl _
  · have hkept : ∀ host : Host, Entries.erase "_id" ((name, host) :: after) =
        (name, host) :: Entries.erase "_id" after := by simp [Entries.erase, hname]
    rw [hkept, hkept]
    exact agree_renderEntries hrefl h _ _ _

/-- **A frame keeps agreement**: of the part in it, only the outcome counts. -/
theorem Frame.agree_fill (hrefl : ∀ e, related e e) (frame : Frame)
    (h : Agree related a.render b.render) :
    Agree related (frame.fill a).render (frame.fill b).render := by
  have hparts := fun before after => agree_mapM hrefl h before after
  cases frame with
  | item before after =>
    simp only [fill, render, coerce, Coerced.render_typed, Value.render, coerceItems_eq_map,
      List.map_append, List.map_cons]
    exact (agree_renderItems hrefl h _ _).map _
  | entry before name after =>
    simp only [fill, render, coerce, Coerced.render_typed, Value.render]
    exact (agree_renderEntries hrefl h before name after).map _
  | arrayItem before after =>
    simp only [fill, render_value, Value.ofItems, Value.render, coerceItems_eq_map,
      List.map_append, List.map_cons]
    exact (agree_renderItems hrefl h _ _).map _
  | mapEntry before name after =>
    simp only [fill, render_value, Value.ofEntries, Value.render]
    exact (agree_renderEntries hrefl h before name after).map _
  | rightOperand operator left =>
    simp only [fill, render_value, Value.combine, Value.render]
    exact (agree_renderItems hrefl h [.typed left] []).map _
  | operand operator before after =>
    simp only [fill, render_value, Value.render]
    exact (agree_renderItems hrefl h before after).map _
  | addedField before name after | projectedField before name after =>
    refine agree_stage rfl ?_
    rw [Stage.payload, Stage.payload]
    exact (agree_renderEntries hrefl h before name after).map _
  | query =>
    refine agree_stage rfl ?_
    rw [Stage.ofQuery, Stage.ofQuery, Stage.payload, Stage.payload]
    exact h
  | accumulator id before name after =>
    exact agree_stage rfl (agree_groupBy hrefl h id before name after)
  | mapInput body =>
    refine agree_stage rfl ?_
    rw [payload_mapOver, payload_mapOver]
    exact (hparts [] [body]).map _
  | mapBody input =>
    refine agree_stage rfl ?_
    rw [payload_mapOver, payload_mapOver]
    exact (hparts [input] []).map _
  | reduceInput initialValue body =>
    refine agree_stage rfl ?_
    rw [payload_reduceOver, payload_reduceOver]
    exact (hparts [] [initialValue, body]).map _
  | reduceInitialValue input body =>
    refine agree_stage rfl ?_
    rw [payload_reduceOver, payload_reduceOver]
    exact (hparts [input] [body]).map _
  | reduceBody input initialValue =>
    refine agree_stage rfl ?_
    rw [payload_reduceOver, payload_reduceOver]
    exact (hparts [input, initialValue] []).map _
  | filterInput condition =>
    refine agree_stage rfl ?_
    rw [payload_filterOver, payload_filterOver]
    exact (hparts [] [condition]).map _
  | filterCondition input =>
    refine agree_stage rfl ?_
    rw [payload_filterOver, payload_filterOver]
    exact (hparts [input] []).map _

end Frame

/-! ## Contexts -/

/-- Agreement goes through every frame of a context, from the innermost one on. -/
theorem Context.agree_fill {related : Error → Error → Prop} (hrefl : ∀ e, related e e)
    (context : Context) {a b : Host} (h : Agree related a.render b.render) :
    Agree related (context.fill a).render (context.fill b).render := by
  induction context with
  | nil => exact h
  | cons frame context ih => exact frame.agree_fill hrefl ih

/-- **Rendering is compositional.** In every context, host values with the same wire form or
with none give the same wire form or none; and if their faults are the same too, so is what
the whole gives. -/
theorem Context.render_fill_congr (context : Context) (a b : Host) :
    (a.coerce.render.toOption = b.coerce.render.toOption →
      (context.fill a).coerce.render.toOption = (context.fill b).coerce.render.toOption) ∧
    (a.coerce.render = b.coerce.render →
      (context.fill a).coerce.render = (context.fill b).coerce.render) := by
  constructor
  · intro h
    rw [← Agree.toOption_eq_iff] at h ⊢
    exact context.agree_fill (fun _ => trivial) h
  · intro h
    rw [← Agree.eq_iff] at h ⊢
    exact context.agree_fill (fun _ => rfl) h

/-- A `$filter` as a stage. -/
def filterStage : Host := .stage (.filterOver (.string "$xs") (.boolean true))

/-- The same `$filter` as a raw document. -/
def filterDocument : Host :=
  .value (.document
    [("$filter", .object [("input", .string "$xs"), ("cond", .bool true)])])

/-- An array of a boolean that was not coerced, whose fault is not that of a null. -/
def uncoercedItem : Host := .value (.array [.unchanged (.boolean true)])

/-- A `$reduce` over an operand, as an accumulator of a `$group`. -/
def inAccumulator : Context :=
  [.accumulator .null [("n", .boolean true)] "n" [], .reduceInput (.integer 0) (.string "$$value"),
    .operand .add [] [.typed (.integer 1)]]

theorem Context.render_fill_congr_inAccumulator :
    (Host.null.coerce.render.toOption = uncoercedItem.coerce.render.toOption ∧
      (inAccumulator.fill .null).coerce.render.toOption =
        (inAccumulator.fill uncoercedItem).coerce.render.toOption) ∧
    (filterStage.coerce.render = filterDocument.coerce.render ∧
      (inAccumulator.fill filterStage).coerce.render =
        (inAccumulator.fill filterDocument).coerce.render) := by
  have hfaults : Host.null.coerce.render.toOption = uncoercedItem.coerce.render.toOption := rfl
  have hfilters : filterStage.coerce.render = filterDocument.coerce.render := rfl
  exact ⟨⟨hfaults, (inAccumulator.render_fill_congr _ _).1 hfaults⟩,
    hfilters, (inAccumulator.render_fill_congr _ _).2 hfilters⟩

end Host
end Aggregation
