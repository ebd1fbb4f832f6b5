import Aggregation.Json.Numeral
import Aggregation.Json.Quoted

/-!
# Writing JSON

The compact form has no blanks. The pretty form puts every item and every entry
on a line of its own, indented by two spaces a level, with one space after the
colon; empty arrays and objects stay on one line.
-/

namespace Aggregation.Json

mutual

/-- The compact text of a value. -/
def compactText : Json → List Char
  | .null => ['n', 'u', 'l', 'l']
  | .bool true => ['t', 'r', 'u', 'e']
  | .bool false => ['f', 'a', 'l', 's', 'e']
  | .integer n => integerText n
  | .float x => floatText x
  | .string s => quote s
  | .array [] => ['[', ']']
  | .array (item :: items) => '[' :: (compactText item ++ compactItems items)
  | .object [] => ['{', '}']
  | .object ((key, value) :: entries) =>
    '{' :: (quote key ++ ':' :: (compactText value ++ compactEntries entries))

/-- The items after the first, and the closing bracket. -/
def compactItems : List Json → List Char
  | [] => [']']
  | item :: items => ',' :: (compactText item ++ compactItems items)

/-- The entries after the first, and the closing brace. -/
def compactEntries : List (String × Json) → List Char
  | [] => ['}']
  | (key, value) :: entries =>
    ',' :: (quote key ++ ':' :: (compactText value ++ compactEntries entries))

end

/-- A line break and the indentation of a level. -/
def newline (level : Nat) : List Char := '\n' :: List.replicate (2 * level) ' '

mutual

/-- The pretty text of a value that stands at a level. -/
def prettyText (level : Nat) : Json → List Char
  | .null => ['n', 'u', 'l', 'l']
  | .bool true => ['t', 'r', 'u', 'e']
  | .bool false => ['f', 'a', 'l', 's', 'e']
  | .integer n => integerText n
  | .float x => floatText x
  | .string s => quote s
  | .array [] => ['[', ']']
  | .array (item :: items) =>
    '[' :: (newline (level + 1) ++ prettyText (level + 1) item ++ prettyItems level items)
  | .object [] => ['{', '}']
  | .object ((key, value) :: entries) =>
    '{' :: (newline (level + 1) ++ quote key ++ ':' :: ' ' ::
      (prettyText (level + 1) value ++ prettyEntries level entries))

/-- The items after the first, and the closing bracket. -/
def prettyItems (level : Nat) : List Json → List Char
  | [] => newline level ++ [']']
  | item :: items =>
    ',' :: (newline (level + 1) ++ prettyText (level + 1) item ++ prettyItems level items)

/-- The entries after the first, and the closing brace. -/
def prettyEntries (level : Nat) : List (String × Json) → List Char
  | [] => newline level ++ ['}']
  | (key, value) :: entries =>
    ',' :: (newline (level + 1) ++ quote key ++ ':' :: ' ' ::
      (prettyText (level + 1) value ++ prettyEntries level entries))

end

/-- The compact form of a value. -/
def compact (value : Json) : String := String.ofList value.compactText

/-- The pretty form of a value. -/
def pretty (value : Json) : String := String.ofList (value.prettyText 0)

end Aggregation.Json
