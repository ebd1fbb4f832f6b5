import Aggregation.Host
import Aggregation.Stage
import Mathlib.Logic.Relation

/-!
# Coercing parts early

A caller may coerce parts of a host value before the whole: what was typed goes back in as a value,
what was left unchanged as itself. Typed values are taken as they are, so a text of digits that is
typed already is not read as a number, and a null or a stage is left unchanged again. The whole is
coerced to the same tree, whichever parts were coerced before, and however often.

## Main definitions

* `Host.CoercedPart` - one part of a host value is replaced by what it is coerced to.

## Main results

* `Host.CoercedPart.coerce_eq` - coercing one part early changes nothing.
* `Host.coerce_eq_of_coercedParts` - neither does coercing any of them, in any order.
-/

namespace Aggregation.Host

/-- A part of the first host value, at some depth of its sequences and mappings or the whole of it,
is replaced by what it is coerced to. -/
inductive CoercedPart : Host → Host → Prop
  | whole (host : Host) : CoercedPart host (ofCoerced host.coerce)
  | item (before after : List Host) {part part' : Host} : CoercedPart part part' →
    CoercedPart (.sequence (before ++ part :: after)) (.sequence (before ++ part' :: after))
  | entry (before after : Entries Host) (name : String) {part part' : Host} :
    CoercedPart part part' →
    CoercedPart (.mapping (before ++ (name, part) :: after))
      (.mapping (before ++ (name, part') :: after))

theorem coerce_sequence (items : List Host) :
    (Host.sequence items).coerce = .typed (.array (items.map coerce)) := by
  rw [coerce, coerceItems_eq_map]

theorem coerce_mapping (entries : Entries Host) : (Host.mapping entries).coerce =
    .typed (.map (entries.map fun entry => (entry.1, entry.2.coerce))) := by
  rw [coerce, coerceEntries_eq_map]

theorem coerce_stage (s : Stage) : (Host.stage s).coerce = .unchanged (.stage s) := by
  rw [coerce]

/-- What was typed is taken as it is. -/
theorem coerce_ofCoerced_typed (v : Value) : (ofCoerced (.typed v)).coerce = .typed v := by
  rw [ofCoerced, coerce]

/-- **What was coerced is coerced to itself.** Every rule gives a typed value, which is taken as it
is; no rule applies to a stage and to null, neither the first time nor the second. -/
theorem coerce_ofCoerced_coerce (host : Host) : (ofCoerced host.coerce).coerce = host.coerce := by
  cases host with
  | stage | null => simp only [coerce, ofCoerced]
  | value | boolean | integer | unsigned | float | decimal | string | date | sequence | mapping =>
    rw [coerce, coerce_ofCoerced_typed]

/-- **Coercing one part early changes nothing**, by induction on the depth of the part. -/
theorem CoercedPart.coerce_eq {host host' : Host} (h : CoercedPart host host') :
    host'.coerce = host.coerce := by
  induction h with
  | whole host => exact coerce_ofCoerced_coerce host
  | item before after _ ih => simp only [coerce_sequence, List.map_append, List.map_cons, ih]
  | entry before after name _ ih =>
    simp only [coerce_mapping, List.map_append, List.map_cons, ih]

/-- **Coercing parts early changes nothing.** However many parts are replaced by what they are
coerced to, in whatever order and however often, the whole is coerced to the same tree. -/
theorem coerce_eq_of_coercedParts (host : Host) :
    (∀ host', Relation.ReflTransGen CoercedPart host host' → host'.coerce = host.coerce) ∧
      (ofCoerced host.coerce).coerce = host.coerce := by
  refine ⟨?_, coerce_ofCoerced_coerce host⟩
  intro host' h
  induction h with
  | refl => rfl
  | tail _ hpart ih => rw [hpart.coerce_eq, ih]

/-- A sequence of a text, a mapping and a `$filter` that has no wire form. -/
def threeParts (text mapping : Host) : Host :=
  .sequence [text, mapping, .stage (.filterOver (.string "$xs") .null)]

/-- A name that is repeated, with a typed text of digits and with null. -/
def typedDigits : Host := .mapping [("a", .value (.string "7")), ("a", .null)]

/-- The text of digits becomes a number, the typed one stays a text. -/
theorem coerce_eq_of_coercedParts_digits :
    let host := threeParts (.string "7") typedDigits
    let coercedEntries := Value.map [("a", .typed (.string "7")), ("a", .unchanged .null)]
    let host' := threeParts (.value (.number (.integral 7))) (.value coercedEntries)
    Relation.ReflTransGen CoercedPart host host' ∧ host'.coerce = host.coerce ∧
      host.coerce = .typed (.array [.typed (.number (.integral 7)), .typed coercedEntries,
        .unchanged (.stage (.filterOver (.string "$xs") .null))]) := by
  intro host coercedEntries host'
  have hdigits : (Host.string "7").coerce = .typed (.number (.integral 7)) := by
    simp [coerce, Value.ofString, Digits.isNumeral, Number.ofDigits, Number.ofInt?, Word.signed?,
      Digits.value, Digits.digitValue]
  have hentries : typedDigits.coerce = .typed coercedEntries := by
    simp only [typedDigits, coerce_mapping, List.map_cons, List.map_nil, coerce, coercedEntries]
  have hfirst : CoercedPart (.string "7") (.value (.number (.integral 7))) := by
    have hwhole := CoercedPart.whole (.string "7")
    rwa [hdigits] at hwhole
  have hsecond : CoercedPart typedDigits (.value coercedEntries) := by
    have hwhole := CoercedPart.whole typedDigits
    rwa [hentries] at hwhole
  have hparts : Relation.ReflTransGen CoercedPart host host' :=
    (Relation.ReflTransGen.single (.item [] _ hfirst)).tail (.item [_] _ hsecond)
  refine ⟨hparts, (coerce_eq_of_coercedParts host).1 host' hparts, ?_⟩
  simp only [host, threeParts, coerce_sequence, List.map_cons, List.map_nil, hdigits, hentries,
    coerce_stage]

end Aggregation.Host
