import Aggregation.Json.Printer
import Aggregation.Stage

/-!
# Pipelines

A pipeline is a sequence of stages that only grows at its end. The stages lie in an
arena and are chained by forward links, so appending touches the tail alone and the
order is that of the links from the head on. Rendering does not change a pipeline: one
document per stage, in order, up to the first fault.
-/

namespace Aggregation

/-- A stage in an arena, with the place of the stage after it. -/
structure Link where
  stage : Stage
  next : Option Nat

/-- Stages in an arena, chained by forward links from the head to the tail. -/
structure Pipeline where
  arena : Array Link
  head : Option Nat
  tail : Option Nat

namespace Pipeline

/-- The pipeline without stages. -/
def empty : Pipeline := ⟨#[], none, none⟩

instance : EmptyCollection Pipeline := ⟨empty⟩
instance : Inhabited Pipeline := ⟨empty⟩

/-- The stages met along the links from a place of the arena on, in at most so many steps.
There is no answer when a link leads out of the arena, or when the last link is not reached. -/
def stagesWithin? (arena : Array Link) : Nat → Option Nat → Option (List Stage)
  | _, none => some []
  | 0, some _ => none
  | steps + 1, some i => do
    let link ← arena[i]?
    let stages ← stagesWithin? arena steps link.next
    return link.stage :: stages

/-- The stages in the order of the links. A walk that ends takes no more steps than the arena
has places. -/
def toList (p : Pipeline) : List Stage := (stagesWithin? p.arena p.arena.size p.head).getD []

/-- Append a stage at the end: it takes the first free place, and the tail links to it. -/
def append (p : Pipeline) (stage : Stage) : Pipeline :=
  let place := p.arena.size
  let arena := p.arena.push ⟨stage, none⟩
  match p.tail with
  | none => ⟨arena, some place, some place⟩
  | some tail =>
    ⟨arena.modify tail fun link => { link with next := some place }, p.head, some place⟩

/-- Append an `$addFields` stage. -/
def addFields (p : Pipeline) (fields : Fields) : Pipeline := p.append (.addFields fields)

/-- Append a `$project` stage. -/
def project (p : Pipeline) (fields : Fields) : Pipeline := p.append (.project fields)

/-- Append a `$match` stage. -/
def matchQuery (p : Pipeline) (query : Host) : Pipeline := p.append (.ofQuery query)

/-- Append a `$group` stage. -/
def groupBy (p : Pipeline) (id : Json) (accumulators : Fields) : Pipeline :=
  p.append (.groupBy id accumulators)

/-- The number of stages. -/
def size (p : Pipeline) : Nat := p.arena.size

/-- Whether there is no stage. -/
def isEmpty (p : Pipeline) : Bool := p.head.isNone

/-- The documents of the stages, in order. -/
def render (p : Pipeline) : Except Error (List Json) := p.toList.mapM Stage.render

/-- The compact text of the rendered pipeline. -/
def toJson (p : Pipeline) : Except Error String := do
  let documents ← p.render
  return (Json.array documents).compact

/-- The pretty text of the rendered pipeline. -/
def toPrettyJson (p : Pipeline) : Except Error String := do
  let documents ← p.render
  return (Json.array documents).pretty

@[simp] theorem stagesWithin?_none (arena : Array Link) (steps : Nat) :
    stagesWithin? arena steps none = some [] := by
  rw [stagesWithin?]

theorem stagesWithin?_some {arena : Array Link} {i : Nat} {link : Link}
    (h : arena[i]? = some link) (steps : Nat) :
    stagesWithin? arena (steps + 1) (some i) =
      (stagesWithin? arena steps link.next).map (link.stage :: ·) := by
  rw [stagesWithin?, h, Option.map_eq_bind]
  rfl

@[simp] theorem toList_empty : empty.toList = [] := by
  simp [toList, empty]

end Pipeline
end Aggregation
