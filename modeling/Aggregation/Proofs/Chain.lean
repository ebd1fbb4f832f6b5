import Aggregation.Pipeline.Basic
import Aggregation.Proofs.Faults

/-!
# The chain of a pipeline

The order of the stages is not stored as a list: it is what the forward links of the
arena say. The invariant is that the links lead from the first place to the last, one
place at a time. It holds of the empty pipeline, every append keeps it, and so it holds
after any run of builder calls. From it follow the bounds of every access, the end of
the traversal, and that rendering gives one document per appended stage, in order.

## Main definitions

* `Pipeline.Chains p stages`: the links of `p` chain exactly `stages`, in order.
* `Call`: the builder calls, with `Pipeline.ofCalls` for a run of them.
-/

namespace Aggregation

namespace Pipeline

/-- The place that a traversal stands at after so many steps, if it has not ended. -/
def placeAfter (p : Pipeline) : Nat → Option Nat
  | 0 => p.head
  | steps + 1 => (p.placeAfter steps).bind fun i => p.arena[i]?.bind Link.next

/-- The links chain the given stages: from the first place to the last, one place at a
time, with the stages in that order. -/
structure Chains (p : Pipeline) (stages : List Stage) : Prop where
  head_eq : p.head = if p.arena.size = 0 then none else some 0
  tail_eq : p.tail = if p.arena.size = 0 then none else some (p.arena.size - 1)
  next_eq : ∀ i (h : i < p.arena.size),
    p.arena[i].next = if i + 1 < p.arena.size then some (i + 1) else none
  stages_eq : p.arena.toList.map Link.stage = stages

variable {p : Pipeline} {stages : List Stage}

theorem chains_empty : empty.Chains [] where
  head_eq := rfl
  tail_eq := rfl
  next_eq := by simp [empty]
  stages_eq := rfl

/-- The arena holds one place for each stage. -/
theorem Chains.size_eq (h : p.Chains stages) : p.arena.size = stages.length := by
  rw [← h.stages_eq, List.length_map, Array.length_toList]

theorem Chains.stage_eq (h : p.Chains stages) {i : Nat} (hi : i < p.arena.size) :
    p.arena[i].stage = stages.get ⟨i, h.size_eq ▸ hi⟩ := by
  simp [← h.stages_eq]

/-- The tail is a place of the arena, so an append writes within bounds. -/
theorem Chains.tail_lt (h : p.Chains stages) {i : Nat} (hi : p.tail = some i) :
    i < p.arena.size := by
  rw [h.tail_eq] at hi
  split at hi
  · contradiction
  · cases hi
    omega

theorem append_of_tail_none (h : p.tail = none) (stage : Stage) :
    p.append stage = ⟨p.arena.push ⟨stage, none⟩, some p.arena.size, some p.arena.size⟩ := by
  simp [append, h]

theorem append_of_tail_some {tail : Nat} (h : p.tail = some tail) (stage : Stage) :
    p.append stage =
      ⟨(p.arena.push ⟨stage, none⟩).modify tail
          fun link => { link with next := some p.arena.size },
        p.head, some p.arena.size⟩ := by
  simp [append, h]

@[simp] theorem size_arena_append (p : Pipeline) (stage : Stage) :
    (p.append stage).arena.size = p.arena.size + 1 := by
  cases h : p.tail with
  | none => simp [append_of_tail_none h]
  | some tail => simp [append_of_tail_some h]

/-- Changing a link moves no stage. -/
theorem map_stage_modify (links : List Link) (i : Nat) (next : Option Nat) :
    (links.modify i fun link => { link with next }).map Link.stage = links.map Link.stage := by
  apply List.ext_getElem?
  intro j
  rw [List.getElem?_map, List.getElem?_map, List.getElem?_modify]
  by_cases hj : i = j <;> simp [hj, Function.comp_def]

/-- An append leaves every stage where it is and puts the new one behind them. -/
theorem map_stage_append (p : Pipeline) (stage : Stage) :
    (p.append stage).arena.toList.map Link.stage =
      p.arena.toList.map Link.stage ++ [stage] := by
  cases h : p.tail with
  | none => simp [append_of_tail_none h]
  | some tail =>
    rw [append_of_tail_some h, Array.toList_modify, map_stage_modify, Array.toList_push,
      List.map_append, List.map_singleton]

/-- **Appending keeps the chain**: the new stage comes after all the others. -/
theorem Chains.append (h : p.Chains stages) (stage : Stage) :
    (p.append stage).Chains (stages ++ [stage]) := by
  have hstages : (p.append stage).arena.toList.map Link.stage = stages ++ [stage] := by
    rw [map_stage_append, h.stages_eq]
  have hsize : (p.append stage).arena.size ≠ 0 := by simp
  rcases Nat.eq_zero_or_pos p.arena.size with hempty | hpos
  · have htail : p.tail = none := by rw [h.tail_eq, if_pos hempty]
    refine ⟨?_, ?_, ?_, hstages⟩
    · rw [if_neg hsize, append_of_tail_none htail, hempty]
    · rw [if_neg hsize, size_arena_append, append_of_tail_none htail]
      rfl
    · intro i hi
      rw [size_arena_append] at hi
      have hlast : i = p.arena.size := by omega
      subst hlast
      simp [append_of_tail_none htail]
  · have htail : p.tail = some (p.arena.size - 1) := by
      rw [h.tail_eq, if_neg (by omega)]
    refine ⟨?_, ?_, ?_, hstages⟩
    · rw [if_neg hsize, append_of_tail_some htail, h.head_eq, if_neg (by omega)]
    · rw [if_neg hsize, size_arena_append, append_of_tail_some htail]
      rfl
    · intro i hi
      simp only [size_arena_append] at hi ⊢
      simp only [append_of_tail_some htail, Array.getElem_modify, Array.getElem_push]
      -- The old tail is the one place whose link changes; the new place has no link.
      by_cases hlast : i = p.arena.size
      · subst hlast
        simp [show ¬ p.arena.size - 1 = p.arena.size by omega]
      · have hi' : i < p.arena.size := by omega
        have hnext := h.next_eq i hi'
        by_cases hold : p.arena.size - 1 = i
        · simp [hold, hi']
          omega
        · simp [hold, hi', hnext]
          omega

/-- A run of appends, from any chain on. -/
theorem Chains.foldl_append (h : p.Chains stages) (more : List Stage) :
    (more.foldl Pipeline.append p).Chains (stages ++ more) := by
  induction more generalizing p stages with
  | nil => simpa using h
  | cons stage more ih => simpa using ih (h.append stage)

/-! ## Traversal -/

/-- A place of the arena is where the traversal stands after that many steps. -/
theorem Chains.placeAfter_eq (h : p.Chains stages) {steps : Nat} (hs : steps ≤ p.size) :
    p.placeAfter steps = if steps < p.size then some steps else none := by
  induction steps with
  | zero =>
    rw [placeAfter, h.head_eq]
    by_cases hempty : p.arena.size = 0 <;> simp [size, hempty, Nat.pos_iff_ne_zero]
  | succ steps ih =>
    have hlt : steps < p.arena.size := hs
    have hnow : p.placeAfter steps = some steps := by
      rw [ih (Nat.le_of_lt hlt)]
      exact if_pos hlt
    rw [placeAfter, hnow, Option.bind_some, Array.getElem?_eq_getElem hlt, Option.bind_some,
      h.next_eq steps hlt]
    rfl

/-- The walk from a place on meets the stages from there to the end, one with each step. -/
theorem Chains.stagesWithin?_eq (h : p.Chains stages) {i : Nat} (hi : i ≤ p.arena.size)
    (steps : Nat) :
    stagesWithin? p.arena steps (if i < p.arena.size then some i else none) =
      if p.arena.size - i ≤ steps then some (stages.drop i) else none := by
  have hdone : ∀ steps i, p.arena.size ≤ i →
      stagesWithin? p.arena steps (if i < p.arena.size then some i else none) =
        if p.arena.size - i ≤ steps then some (stages.drop i) else none := by
    intro steps i hend
    rw [if_neg (by omega), stagesWithin?_none, if_pos (by omega),
      List.drop_eq_nil_of_le (h.size_eq ▸ hend)]
  induction steps generalizing i with
  | zero =>
    rcases Nat.lt_or_ge i p.arena.size with hlt | hend
    · rw [if_pos hlt, stagesWithin?, if_neg (by omega)]
    · exact hdone 0 i hend
  | succ steps ih =>
    rcases Nat.lt_or_ge i p.arena.size with hlt | hend
    · rw [if_pos hlt, stagesWithin?_some (Array.getElem?_eq_getElem hlt), h.next_eq i hlt,
        ih (by omega), h.stage_eq hlt]
      by_cases hleft : p.arena.size - (i + 1) ≤ steps
      · rw [if_pos hleft, if_pos (by omega), Option.map_some]
        exact congrArg some (List.drop_eq_getElem_cons (h.size_eq ▸ hlt)).symm
      · rw [if_neg hleft, if_neg (by omega), Option.map_none]
    · exact hdone (steps + 1) i hend

/-- **The traversal ends** after as many steps as there are stages, having met each of them
once and in order. -/
theorem Chains.stagesWithin?_head (h : p.Chains stages) (steps : Nat) :
    stagesWithin? p.arena steps p.head = if p.size ≤ steps then some stages else none := by
  have hwalk := h.stagesWithin?_eq (Nat.zero_le p.arena.size) steps
  rw [List.drop_zero, Nat.sub_zero] at hwalk
  rw [h.head_eq, size, ← hwalk]
  by_cases hempty : p.arena.size = 0 <;> simp [hempty, Nat.pos_iff_ne_zero]

theorem Chains.toList_eq (h : p.Chains stages) : p.toList = stages := by
  have hwithin : p.size ≤ p.arena.size := Nat.le_refl _
  rw [toList, h.stagesWithin?_head, if_pos hwithin, Option.getD_some]

theorem Chains.isEmpty_iff (h : p.Chains stages) : p.isEmpty = true ↔ p.size = 0 := by
  rw [isEmpty, h.head_eq, size]
  by_cases hempty : p.arena.size = 0 <;> simp [hempty]

theorem Chains.render_eq (h : p.Chains stages) : p.render = stages.mapM Stage.render := by
  rw [render, h.toList_eq]

end Pipeline

theorem Stage.render_eq_ok {s : Stage} {doc : Json} :
    s.render = .ok doc ↔ ∃ payload, s.payload = .ok payload ∧
      doc = .object [(s.keyword.symbol, payload)] := by
  rw [Stage.render, Fault.bind_eq_ok]
  constructor
  · rintro ⟨payload, hpayload, h⟩
    cases h
    exact ⟨payload, hpayload, rfl⟩
  · rintro ⟨payload, hpayload, rfl⟩
    exact ⟨payload, hpayload, rfl⟩

/-! ## Runs of builder calls -/

/-- A call of the builder. -/
inductive Call where
  | append (stage : Stage)
  | addFields (fields : Fields)
  | project (fields : Fields)
  | matchQuery (query : Host)
  | groupBy (id : Json) (accumulators : Fields)

namespace Call

/-- What a call does to a pipeline. -/
def apply (p : Pipeline) : Call → Pipeline
  | .append stage => p.append stage
  | .addFields fields => p.addFields fields
  | .project fields => p.project fields
  | .matchQuery query => p.matchQuery query
  | .groupBy id accumulators => p.groupBy id accumulators

/-- The stage that a call appends. -/
def stage : Call → Stage
  | .append stage => stage
  | .addFields fields => .addFields fields
  | .project fields => .project fields
  | .matchQuery query => .ofQuery query
  | .groupBy id accumulators => .groupBy id accumulators

/-- Whatever the call, its step is an append. -/
theorem apply_eq_append (p : Pipeline) (call : Call) : apply p call = p.append call.stage := by
  cases call <;> rfl

end Call

namespace Pipeline

/-- The pipeline that a run of builder calls makes. -/
def ofCalls (calls : List Call) : Pipeline := calls.foldl Call.apply empty

theorem chains_ofCalls (calls : List Call) : (ofCalls calls).Chains (calls.map Call.stage) := by
  have happend : Call.apply = fun p call => p.append call.stage := by
    funext p call
    exact Call.apply_eq_append p call
  rw [ofCalls, happend, ← List.foldl_map]
  exact chains_empty.foldl_append _

/-- **The chain after any run of builder calls.** Head and tail are absent exactly in the
empty arena; else they are its first and last place, and each link leads to the place just
after, the last one nowhere. So every access is in bounds, and the traversal ends after as
many steps as there were calls, having met the appended stages in order. Rendering fails
exactly when one of them fails; otherwise it gives their documents in order, each an object
with the symbol of the stage's keyword as its only key. -/
theorem ofCalls_chain (calls : List Call) :
    let p := ofCalls calls
    let stages := calls.map Call.stage
    ((p.head = none ↔ p.arena = #[]) ∧ (p.tail = none ↔ p.arena = #[])) ∧
    (p.arena ≠ #[] → p.head = some 0 ∧ p.tail = some (p.arena.size - 1)) ∧
    (∀ i (h : i < p.arena.size),
      p.arena[i].next = if i + 1 < p.arena.size then some (i + 1) else none) ∧
    (∀ i, p.tail = some i → i < p.arena.size) ∧
    (∀ steps, steps < p.size → p.placeAfter steps = some steps ∧ steps < p.arena.size) ∧
    p.placeAfter p.size = none ∧
    (∀ steps, stagesWithin? p.arena steps p.head =
      if p.size ≤ steps then some stages else none) ∧
    p.size = calls.length ∧ (p.isEmpty = true ↔ p.size = 0) ∧
    ((∃ e, p.render = .error e) ↔ ∃ s ∈ stages, ∃ e, s.render = .error e) ∧
    (∀ docs, p.render = .ok docs ↔ List.Forall₂
      (fun s doc => s.render = .ok doc ∧
        ∃ payload, doc = Json.object [(s.keyword.symbol, payload)]) stages docs) := by
  intro p stages
  have hp : p.Chains stages := chains_ofCalls calls
  have hempty : p.arena = #[] ↔ p.arena.size = 0 := Array.size_eq_zero_iff.symm
  refine ⟨⟨?_, ?_⟩, ?_, hp.next_eq, fun i => hp.tail_lt, ?_, ?_, hp.stagesWithin?_head, ?_,
    hp.isEmpty_iff, ?_, ?_⟩
  · rw [hp.head_eq, hempty]
    simp
  · rw [hp.tail_eq, hempty]
    simp
  · intro hne
    rw [hp.head_eq, hp.tail_eq, if_neg (mt hempty.mpr hne), if_neg (mt hempty.mpr hne)]
    exact ⟨rfl, rfl⟩
  · intro steps hlt
    rw [hp.placeAfter_eq (Nat.le_of_lt hlt), if_pos hlt]
    exact ⟨rfl, hlt⟩
  · rw [hp.placeAfter_eq (Nat.le_refl _), if_neg (Nat.lt_irrefl _)]
  · rw [size, hp.size_eq, List.length_map]
  · rw [hp.render_eq]
    exact Fault.mapM_fails_iff
  · intro docs
    rw [hp.render_eq, Fault.mapM_eq_ok]
    constructor
    · intro hdocs
      refine hdocs.imp fun s doc hdoc => ⟨hdoc, ?_⟩
      obtain ⟨payload, -, rfl⟩ := Stage.render_eq_ok.mp hdoc
      exact ⟨payload, rfl⟩
    · exact fun hdocs => hdocs.imp fun s doc hdoc => hdoc.1

end Pipeline
end Aggregation
