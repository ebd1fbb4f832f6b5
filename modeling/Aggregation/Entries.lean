/-!
# Ordered entries

A document is a list of named values in the order in which the names first
appeared. Writing a name that is present replaces its value where it stands; a
new name goes to the end. A list with repeated names describes the document that
results from writing its entries one after the other.
-/

namespace Aggregation

universe u

/-- Named values in order. -/
abbrev Entries (α : Type u) := List (String × α)

namespace Entries

variable {α : Type u}

/-- The names, in order. -/
def names (entries : Entries α) : List String := entries.map Prod.fst

/-- The value under the first entry of that name. -/
def lookup? (name : String) : Entries α → Option α
  | [] => none
  | (key, value) :: rest => if key = name then some value else lookup? name rest

/-- Write a value under a name: in place when the name is present, else at the end. -/
def insert (name : String) (value : α) : Entries α → Entries α
  | [] => [(name, value)]
  | (key, old) :: rest =>
    if key = name then (key, value) :: rest else (key, old) :: insert name value rest

/-- Drop every entry of that name; the others keep their order. -/
def erase (name : String) (entries : Entries α) : Entries α :=
  entries.filter fun entry => entry.1 != name

/-- Write all entries of the second list into the first, in order. -/
def insertAll (document entries : Entries α) : Entries α :=
  entries.foldl (fun written entry => insert entry.1 entry.2 written) document

/-- The document that results from writing the entries in order: a repeated name
keeps its first place and its last value. -/
def collapse (entries : Entries α) : Entries α := insertAll [] entries

@[simp] theorem lookup?_nil (name : String) : lookup? name ([] : Entries α) = none := rfl

@[simp] theorem insert_nil (name : String) (value : α) :
    insert name value [] = [(name, value)] := rfl

@[simp] theorem insertAll_nil (document : Entries α) : insertAll document [] = document := rfl

@[simp] theorem insertAll_cons (document : Entries α) (entry : String × α)
    (entries : Entries α) : insertAll document (entry :: entries) =
      insertAll (insert entry.1 entry.2 document) entries := rfl

@[simp] theorem lookup?_insert_self (name : String) (value : α) (entries : Entries α) :
    lookup? name (insert name value entries) = some value := by
  fun_induction insert name value entries <;> simp_all [lookup?]

theorem lookup?_insert_of_ne {name other : String} (h : name ≠ other) (value : α)
    (entries : Entries α) : lookup? other (insert name value entries) = lookup? other entries := by
  fun_induction insert name value entries <;> simp_all [lookup?]

end Entries
end Aggregation
