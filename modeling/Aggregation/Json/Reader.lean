import Aggregation.Json.Numeral
import Aggregation.Json.Quoted

/-!
# Reading JSON

Readers take the text that is left and return a value with the text that remains
after it, or the first fault. Arrays and objects nest at most `maxDepth` deep:
the reader of a value recurses on the levels that are still allowed. The loops
over items and entries recurse on a bound; the length of the text suffices,
since each round takes at least one character.
-/

namespace Aggregation.Json

/-- How deep arrays and objects may nest. -/
def maxDepth : Nat := 127

/-- A reader returns a value and the rest of the text. -/
abbrev Reader (α : Type) := List Char → Except SyntaxError (α × List Char)

/-- The characters that may stand between the parts of a text. -/
def isBlank (c : Char) : Bool := c == ' ' || c == '\t' || c == '\n' || c == '\r'

/-- The text from its first character that is not a blank. -/
def skipBlanks (text : List Char) : List Char := text.dropWhile isBlank

/-- Read the letters of a word and return its value. -/
def readWord (value : Json) : List Char → Reader Json
  | [], text => .ok (value, text)
  | _ :: _, [] => .error .endInValue
  | c :: word, d :: text => if c = d then readWord value word text else .error .wordExpected

/-- Read the items after the first, up to the closing bracket. -/
def readItems (readItem : Reader Json) : Nat → Reader (List Json)
  | 0, _ => .error .endInList
  | bound + 1, text =>
    match skipBlanks text with
    | [] => .error .endInList
    | ']' :: rest => .ok ([], rest)
    | ',' :: rest =>
      match skipBlanks rest with
      | ']' :: _ => .error .trailingComma
      | rest => do
        let (item, rest) ← readItem rest
        let (items, rest) ← readItems readItem bound rest
        return (item :: items, rest)
    | _ => .error .listContinuationExpected

/-- Read the array whose opening bracket has been taken. -/
def readArray (readItem : Reader Json) (bound : Nat) : Reader (List Json) := fun text =>
  match skipBlanks text with
  | [] => .error .endInList
  | ']' :: rest => .ok ([], rest)
  | rest => do
    let (item, rest) ← readItem rest
    let (items, rest) ← readItems readItem bound rest
    return (item :: items, rest)

/-- Read an entry whose key's opening quote has been taken. -/
def readEntry (readItem : Reader Json) : Reader (String × Json) := fun text => do
  let (key, rest) ← readQuoted text
  match skipBlanks rest with
  | [] => .error .endInObject
  | ':' :: rest =>
    let (value, rest) ← readItem rest
    return ((key, value), rest)
  | _ => .error .colonExpected

/-- Read the entries after the first, up to the closing brace. -/
def readEntries (readItem : Reader Json) : Nat → Reader (List (String × Json))
  | 0, _ => .error .endInObject
  | bound + 1, text =>
    match skipBlanks text with
    | [] => .error .endInObject
    | '}' :: rest => .ok ([], rest)
    | ',' :: rest =>
      match skipBlanks rest with
      | [] => .error .endInValue
      | '"' :: rest => do
        let (entry, rest) ← readEntry readItem rest
        let (entries, rest) ← readEntries readItem bound rest
        return (entry :: entries, rest)
      | '}' :: _ => .error .trailingComma
      | _ => .error .keyNotString
    | _ => .error .objectContinuationExpected

/-- Read the object whose opening brace has been taken. -/
def readObject (readItem : Reader Json) (bound : Nat) : Reader (List (String × Json)) :=
  fun text =>
    match skipBlanks text with
    | [] => .error .endInObject
    | '}' :: rest => .ok ([], rest)
    | '"' :: rest => do
      let (entry, rest) ← readEntry readItem rest
      let (entries, rest) ← readEntries readItem bound rest
      return (entry :: entries, rest)
    | _ => .error .keyNotString

/-- Read a value that may open `levels` more arrays and objects inside each other.
An object with repeated keys is the document its entries write. -/
def readValue (bound : Nat) : Nat → Reader Json
  | levels, text =>
    match skipBlanks text with
    | [] => .error .endInValue
    | 'n' :: rest => readWord .null ['u', 'l', 'l'] rest
    | 't' :: rest => readWord (.bool true) ['r', 'u', 'e'] rest
    | 'f' :: rest => readWord (.bool false) ['a', 'l', 's', 'e'] rest
    | '"' :: rest => do
      let (s, rest) ← readQuoted rest
      return (.string s, rest)
    | '[' :: rest =>
      match levels with
      | 0 => .error .tooDeep
      | levels + 1 => do
        let (items, rest) ← readArray (readValue bound levels) bound rest
        return (.array items, rest)
    | '{' :: rest =>
      match levels with
      | 0 => .error .tooDeep
      | levels + 1 => do
        let (entries, rest) ← readObject (readValue bound levels) bound rest
        return (.object (Entries.collapse entries), rest)
    | '-' :: rest => readNumeral true rest
    | c :: rest => if c.isDigit then readNumeral false (c :: rest) else .error .valueExpected

/-- Read a text that holds one value, with nothing but blanks around it. -/
def read (text : String) : Except SyntaxError Json := do
  let characters := text.toList
  let (value, rest) ← readValue characters.length maxDepth characters
  if (skipBlanks rest).isEmpty then .ok value else .error .trailingCharacters

end Aggregation.Json
