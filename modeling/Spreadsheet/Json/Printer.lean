import Spreadsheet.Decimal.Digits
import Spreadsheet.Json.Basic

/-!
# Printing JSON documents

The pretty form: one item or member a line, two more spaces for each level, a colon and a space
after a key, and nothing between the brackets of an empty array or object.
-/

namespace Spreadsheet.Json

/-! ## Strings -/

/-- A lower-case hexadecimal digit. -/
def hexDigit (n : Nat) : Char :=
  if n < 10 then Digits.digitChar n else Char.ofNat ('a'.toNat + (n - 10))

/-- A character inside a string; only quotes, backslashes and control characters are escaped. -/
def escapeChar (c : Char) : List Char :=
  if c == '"' then ['\\', '"']
  else if c == '\\' then ['\\', '\\']
  else if c == '\x08' then ['\\', 'b']
  else if c == '\x0c' then ['\\', 'f']
  else if c == '\n' then ['\\', 'n']
  else if c == '\r' then ['\\', 'r']
  else if c == '\t' then ['\\', 't']
  else if c.toNat < 0x20 then
    ['\\', 'u', '0', '0', hexDigit (c.toNat / 16), hexDigit (c.toNat % 16)]
  else [c]

/-- A string with its quotes. -/
def printString (s : String) : List Char :=
  '"' :: s.toList.flatMap escapeChar ++ ['"']

/-! ## Values -/

/-- A new line at a level of indentation. -/
def newline (level : Nat) : List Char :=
  '\n' :: List.replicate (2 * level) ' '

mutual

/-- A value whose first character stands on a line of this level. -/
def printValue (level : Nat) : Json → List Char
  | null => "null".toList
  | bool b => (if b then "true" else "false").toList
  | number text => text.toList
  | string s => printString s
  | array [] => ['[', ']']
  | array (v :: vs) =>
    '[' :: newline (level + 1) ++ printValue (level + 1) v ++ printItems (level + 1) vs ++
      newline level ++ [']']
  | object [] => ['\x7b', '\x7d']
  | object ((key, v) :: ms) =>
    '\x7b' :: newline (level + 1) ++ printString key ++ ':' :: ' ' :: printValue (level + 1) v ++
      printMembers (level + 1) ms ++ newline level ++ ['\x7d']

/-- Further items, each after a comma on a line of its own. -/
def printItems (level : Nat) : List Json → List Char
  | [] => []
  | v :: vs => ',' :: newline level ++ printValue level v ++ printItems level vs

/-- Further members, each after a comma on a line of its own. -/
def printMembers (level : Nat) : List (String × Json) → List Char
  | [] => []
  | (key, v) :: ms =>
    ',' :: newline level ++ printString key ++ ':' :: ' ' :: printValue level v ++
      printMembers level ms

end

/-- The pretty form of a document (`to_writer_pretty`). -/
def pretty (v : Json) : String :=
  String.ofList (printValue 0 v)

end Spreadsheet.Json
