/-!
# Stage keywords

The seven stages and the key under which each stands in a pipeline document. A
keyword is found by its exact symbol.
-/

namespace Aggregation

/-- The name of a stage. -/
inductive Keyword where
  | addFields
  | project
  | matching
  | group
  | map
  | reduce
  | filter
  deriving DecidableEq, Repr

namespace Keyword

/-- The key of the stage in a document. -/
def symbol : Keyword → String
  | .addFields => "$addFields"
  | .project => "$project"
  | .matching => "$match"
  | .group => "$group"
  | .map => "$map"
  | .reduce => "$reduce"
  | .filter => "$filter"

/-- All keywords. -/
def all : List Keyword := [.addFields, .project, .matching, .group, .map, .reduce, .filter]

/-- The keyword with the given symbol. -/
def ofSymbol? (symbol : String) : Option Keyword :=
  all.find? fun keyword => keyword.symbol == symbol

instance : ToString Keyword := ⟨symbol⟩

@[simp] theorem ofSymbol?_symbol (keyword : Keyword) :
    ofSymbol? keyword.symbol = some keyword := by
  cases keyword <;> decide

theorem symbol_inj {k l : Keyword} (h : k.symbol = l.symbol) : k = l := by
  cases k <;> cases l <;> simp_all [symbol]

end Keyword
end Aggregation
