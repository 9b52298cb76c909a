/-
JSON values as text.

* `Json.write` — the compact form: no white space, members in the order of their names;
* `Json.writePretty` — the same value over several lines, indented by two spaces a level;
* `writeQuoted` — a text between quotes, with the escapes that JSON requires.

Design notes: the writers give lists of characters, so that what they write can be compared with
what a reader accepts; `Json.compact` and `Json.pretty` are the strings.
-/
import DocQuery.Json.Basic
import DocQuery.Number.Layout

namespace DocQuery

namespace Json

/-- The digit of value `n`, in lower case. -/
def hexDigit (n : Nat) : Char :=
  Nat.digitChar n

/-- One character between quotes: quotes, backslashes and control characters are escaped. -/
def escapeChar (c : Char) : List Char :=
  if c = '"' then ['\\', '"']
  else if c = '\\' then ['\\', '\\']
  else if c = '\n' then ['\\', 'n']
  else if c = '\r' then ['\\', 'r']
  else if c = '\t' then ['\\', 't']
  else if c.toNat = 0x08 then ['\\', 'b']
  else if c.toNat = 0x0C then ['\\', 'f']
  else if c.toNat < 0x20 then
    ['\\', 'u', '0', '0', hexDigit (c.toNat / 16), hexDigit (c.toNat % 16)]
  else [c]

/-- A text between double quotes. -/
def writeQuoted (text : String) : List Char :=
  '"' :: text.toList.flatMap escapeChar ++ ['"']

/-- The text of a numeral. -/
def writeNumeral : Numeral → List Char
  | .integer i => (Number.integerText i).toList
  | .double x => Number.jsonLayout.write x

mutual

/-- The compact text of a value. -/
def write : Json → List Char
  | .null => ['n', 'u', 'l', 'l']
  | .boolean true => ['t', 'r', 'u', 'e']
  | .boolean false => ['f', 'a', 'l', 's', 'e']
  | .number n => writeNumeral n
  | .text s => writeQuoted s
  | .array [] => ['[', ']']
  | .array (item :: items) => '[' :: write item ++ writeItems items
  | .object [] => ['{', '}']
  | .object ((name, value) :: members) =>
    '{' :: writeQuoted name ++ ':' :: write value ++ writeMembers members

/-- The items of an array after the first, and its closing bracket. -/
def writeItems : List Json → List Char
  | [] => [']']
  | item :: items => ',' :: write item ++ writeItems items

/-- The members of an object after the first, and its closing brace. -/
def writeMembers : List (String × Json) → List Char
  | [] => ['}']
  | (name, value) :: members =>
    ',' :: writeQuoted name ++ ':' :: write value ++ writeMembers members

end

/-- A new line, indented by `level` levels. -/
def newLine (level : Nat) : List Char :=
  '\n' :: List.replicate (2 * level) ' '

mutual

/-- The text of a value over several lines, inside `level` containers. -/
def writePretty (level : Nat) : Json → List Char
  | .array (item :: items) =>
    '[' :: newLine (level + 1) ++ writePretty (level + 1) item ++ writePrettyItems level items
  | .object ((name, value) :: members) =>
    '{' :: newLine (level + 1) ++ writeQuoted name ++ ':' :: ' ' :: writePretty (level + 1) value ++
      writePrettyMembers level members
  | .array [] => ['[', ']']
  | .object [] => ['{', '}']
  | .null => write .null
  | .boolean b => write (.boolean b)
  | .number n => writeNumeral n
  | .text s => writeQuoted s

/-- The items after the first, each on a line of its own. -/
def writePrettyItems (level : Nat) : List Json → List Char
  | [] => newLine level ++ [']']
  | item :: items =>
    ',' :: newLine (level + 1) ++ writePretty (level + 1) item ++ writePrettyItems level items

/-- The members after the first, each on a line of its own. -/
def writePrettyMembers (level : Nat) : List (String × Json) → List Char
  | [] => newLine level ++ ['}']
  | (name, value) :: members =>
    ',' :: newLine (level + 1) ++ writeQuoted name ++ ':' :: ' ' :: writePretty (level + 1) value ++
      writePrettyMembers level members

end

/-- The compact text of a value, as a string. -/
def compact (value : Json) : String :=
  String.ofList value.write

/-- The text of a value over several lines, as a string. -/
def pretty (value : Json) : String :=
  String.ofList (value.writePretty 0)

end Json

end DocQuery
