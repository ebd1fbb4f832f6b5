import Aggregation.Binary64.Basic
import Aggregation.Entries

/-!
# JSON values

Numbers keep how they are held: an integer, of the range that 64 bits with or
without a sign can hold, or a finite `Binary64`; the integer 1 and the float 1.0
are different values. Objects keep their entries in order, with distinct keys.
These bounds are what the reader and the renderer produce; the type itself does
not enforce them.
-/

namespace Aggregation

/-- A JSON value. -/
inductive Json where
  | null
  | bool (b : Bool)
  | integer (n : Int)
  | float (x : Binary64)
  | string (s : String)
  | array (items : List Json)
  | object (entries : List (String × Json))

namespace Json

instance : Inhabited Json := ⟨.null⟩

mutual

/-- Equality of JSON values: the order of an object's keys does not count, floats
compare numerically, and an integer never equals a float. -/
def equal : Json → Json → Bool
  | .null, .null => true
  | .bool a, .bool b => a == b
  | .integer m, .integer n => m == n
  | .float x, .float y => x.equal y
  | .string s, .string t => s == t
  | .array xs, .array ys => equalItems xs ys
  | .object xs, .object ys => xs.length == ys.length && equalEntries xs ys
  | _, _ => false

/-- Items are equal one by one. -/
def equalItems : List Json → List Json → Bool
  | [], [] => true
  | x :: xs, y :: ys => equal x y && equalItems xs ys
  | _, _ => false

/-- Every entry of the first list has an equal value under its key in the second. -/
def equalEntries : List (String × Json) → List (String × Json) → Bool
  | [], _ => true
  | (key, x) :: xs, ys =>
    (match Entries.lookup? key ys with
      | some y => equal x y
      | none => false) && equalEntries xs ys

end

end Json
end Aggregation
