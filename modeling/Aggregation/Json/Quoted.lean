import Aggregation.Json.SyntaxError

/-!
# Quoted strings

A string is written between double quotes. The quote, the backslash and the
characters below U+0020 are escaped, with a short escape where there is one; all
other characters stand for themselves. Reading also accepts `\/` and every
`\uXXXX`, a pair of surrogates making one character.
-/

namespace Aggregation.Json

/-- The hexadecimal digit, in lower case, of a number below sixteen. -/
def hexDigit (n : Nat) : Char :=
  if n < 10 then Char.ofNat (48 + n) else Char.ofNat (87 + n)

/-- How a character is written inside quotes. -/
def escape (c : Char) : List Char :=
  if c = '"' then ['\\', '"']
  else if c = '\\' then ['\\', '\\']
  else if c = '\x08' then ['\\', 'b']
  else if c = '\x0c' then ['\\', 'f']
  else if c = '\n' then ['\\', 'n']
  else if c = '\r' then ['\\', 'r']
  else if c = '\t' then ['\\', 't']
  else if c.toNat < 0x20 then
    ['\\', 'u', '0', '0', hexDigit (c.toNat / 16), hexDigit (c.toNat % 16)]
  else [c]

/-- The written form of a string, quotes included. -/
def quote (s : String) : List Char := '"' :: s.toList.flatMap escape ++ ['"']

/-- The value of a hexadecimal digit of either case. -/
def hexValue? (c : Char) : Option Nat :=
  if '0' ≤ c ∧ c ≤ '9' then some (c.toNat - 48)
  else if 'a' ≤ c ∧ c ≤ 'f' then some (c.toNat - 87)
  else if 'A' ≤ c ∧ c ≤ 'F' then some (c.toNat - 55)
  else none

/-- The UTF-16 unit that four hexadecimal digits spell. A text with fewer than
four bytes left counts as ended, whatever those bytes are. -/
def hexUnit (text : List Char) : Except SyntaxError Nat :=
  match (text.take 4).mapM hexValue? with
  | some [a, b, c, d] => .ok (((a * 16 + b) * 16 + c) * 16 + d)
  | _ =>
    if (text.take 4).foldl (fun bytes c => bytes + c.utf8Size) 0 < 4 then .error .endInString
    else .error .invalidEscape

/-- Whether a UTF-16 unit opens a pair. -/
def isLeadingUnit (unit : Nat) : Bool := decide (0xD800 ≤ unit) && decide (unit ≤ 0xDBFF)

/-- Whether a UTF-16 unit closes a pair. -/
def isTrailingUnit (unit : Nat) : Bool := decide (0xDC00 ≤ unit) && decide (unit ≤ 0xDFFF)

/-- The character of a pair of UTF-16 units. -/
def pairChar (leading trailing : Nat) : Char :=
  Char.ofNat (0x10000 + (leading - 0xD800) * 0x400 + (trailing - 0xDC00))

/-- The character of a `\u` escape, given the text after `\u`, and how many
characters of that text it took. -/
def unicodeEscape (text : List Char) : Except SyntaxError (Char × Nat) := do
  let unit ← hexUnit text
  if isTrailingUnit unit then .error .loneSurrogate
  else if isLeadingUnit unit then
    match text.drop 4 with
    | [] => .error .endInString
    | ['\\'] => .error .endInString
    | '\\' :: 'u' :: rest =>
      let second ← hexUnit rest
      if isTrailingUnit second then .ok (pairChar unit second, 10)
      else .error .loneSurrogate
    | _ => .error .unfinishedPair
  else .ok (Char.ofNat unit, 4)

/-- The character of an escape, given the text after the backslash, and how many
characters of that text it took. -/
def readEscape : List Char → Except SyntaxError (Char × Nat)
  | [] => .error .endInString
  | '"' :: _ => .ok ('"', 1)
  | '\\' :: _ => .ok ('\\', 1)
  | '/' :: _ => .ok ('/', 1)
  | 'b' :: _ => .ok ('\x08', 1)
  | 'f' :: _ => .ok ('\x0c', 1)
  | 'n' :: _ => .ok ('\n', 1)
  | 'r' :: _ => .ok ('\r', 1)
  | 't' :: _ => .ok ('\t', 1)
  | 'u' :: rest => do
    let (c, used) ← unicodeEscape rest
    return (c, used + 1)
  | _ => .error .invalidEscape

/-- Read characters up to the closing quote, in front of those read before
(kept in reverse), and return the rest of the text. -/
def readCharacters (before : List Char) :
    List Char → Except SyntaxError (List Char × List Char)
  | [] => .error .endInString
  | c :: text =>
    if c = '"' then .ok (before.reverse, text)
    else if c = '\\' then
      match readEscape text with
      | .error e => .error e
      | .ok (d, used) => readCharacters (d :: before) (text.drop used)
    else if c.toNat < 0x20 then .error .controlCharacter
    else readCharacters (c :: before) text
  termination_by text => text.length
  decreasing_by all_goals simp only [List.length_drop, List.length_cons]; omega

/-- Read the string whose opening quote has been taken. -/
def readQuoted (text : List Char) : Except SyntaxError (String × List Char) := do
  let (characters, rest) ← readCharacters [] text
  return (String.ofList characters, rest)

end Aggregation.Json
