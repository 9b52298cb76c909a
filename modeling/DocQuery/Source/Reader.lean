/-
From JSON text to its tree.

* `readScalar` — strings, numbers and words;
* `readMembers`, `readItems` — what containers hold, over a reader for values;
* `readValue` — a value of at most so many levels of containers;
* `readJson` — a whole text.

Design notes: the recursion is on the levels that are left, since only a container needs one. The
loops pass a character in each round, so what is left of the text is enough fuel. A name may occur
only once in an object, whatever escapes it is written with.
-/
import DocQuery.Source.Tree
import DocQuery.Text.Cursor

namespace DocQuery

namespace Source

/-- A reader of values. -/
abbrev ValueReader := Cursor → Except Fault (Source × Cursor)

/-- The columns of a string that begins at `start`, unless its characters stand side by side. -/
def escapedColumns? (start : Position) (columns : List Nat) : Option (List Nat) :=
  if columns = List.range' (start.column + 1) columns.length then none else some columns

/-- The words that are values. -/
def jsonWords : List String := ["true", "false", "null"]

/-- Reads a string. -/
def readText (c : Cursor) : Except Fault (Source × Cursor) := do
  let (quoted, next) ← Reading.value c.readQuoted
  let columns := escapedColumns? c.position quoted.columns
  .ok (.scalar (.quoted quoted.text) columns c.position, next)

/-- Reads a number. -/
def readNumber (c : Cursor) : Except Fault (Source × Cursor) := do
  let (spelling, next) ← Reading.value c.readNumber
  if (Numeral.read? spelling.toList).isSome then
    .ok (.scalar (.bare spelling) none c.position, next)
  else
    .error (c.fault (.invalidNumber spelling))

/-- Reads a word. -/
def readWord (c : Cursor) : Except Fault (Source × Cursor) := do
  let (word, next) ← Reading.value c.readName
  if jsonWords.contains word then
    .ok (.scalar (.bare word) none c.position, next)
  else
    .error (c.fault (.invalidLiteral word))

/-- Reads a scalar that begins with the character `first`. -/
def readScalar (first : Char) (c : Cursor) : Except Fault (Source × Cursor) :=
  if first = '"' then readText c
  else if first = '-' || first.isDigit then readNumber c
  else if Text.isAlphabetic first then readWord c
  else .error (c.fault (.unexpectedCharacter first))

/-- What comes after an entry of a container. -/
inductive Separation where
  | more (next : Cursor)
  | done (next : Cursor)

/-- Reads the comma after an entry of the container that begins at `start`, or its bracket `close`.
-/
def readSeparator (close : Char) (start : Position) (c : Cursor) : Except Fault Separation :=
  let here := c.skipBlank
  match here.passChar? ',' with
  | some next => .ok (.more next)
  | none =>
    match here.passChar? close with
    | some next => .ok (.done next)
    | none =>
      if here.atEnd then .error (.malformed (.missingClosing close) start)
      else .error (here.fault (.separatorExpected close))

/-- Reads the name of a member and the colon behind it. The names in `earlier` are taken. -/
def readMemberName (earlier : List String) (c : Cursor) : Except Fault (String × Cursor) := do
  let here := c.skipBlank
  if here.peek ≠ some '"' then
    .error (here.fault .memberNameExpected)
  else
    let (quoted, next) ← Reading.value here.readQuoted
    if earlier.contains quoted.text then
      .error (here.fault (.duplicateMember quoted.text))
    else
      let ((), next) ← Reading.value (next.skipBlank.expect ':')
      .ok (quoted.text, next)

/-- Reads the members of the object that begins at `start`, of which there is one at least. The
names in `earlier` are taken. -/
def readMembers (read : ValueReader) (start : Position) :
    (fuel : Nat) → (earlier : List String) → Cursor →
      Except Fault (List (String × Source) × Cursor)
  | 0, _, c => .ok ([], c)
  | fuel + 1, earlier, c => do
    let (name, next) ← readMemberName earlier c
    let (value, next) ← read next
    match ← readSeparator '}' start next with
    | .done next => .ok ([(name, value)], next)
    | .more next =>
      let (members, last) ← readMembers read start fuel (name :: earlier) next
      .ok ((name, value) :: members, last)

/-- Reads the items of the array that begins at `start`, of which there is one at least. -/
def readItems (read : ValueReader) (start : Position) :
    (fuel : Nat) → Cursor → Except Fault (List Source × Cursor)
  | 0, c => .ok ([], c)
  | fuel + 1, c => do
    let (value, next) ← read c
    match ← readSeparator ']' start next with
    | .done next => .ok ([value], next)
    | .more next =>
      let (items, last) ← readItems read start fuel next
      .ok (value :: items, last)

/-- Reads an object, at whose brace the cursor stands. -/
def readObject (read : ValueReader) (c : Cursor) : Except Fault (Source × Cursor) := do
  let inside := (c.pass 1).skipBlank
  match inside.passChar? '}' with
  | some next => .ok (.object [] c.position, next)
  | none =>
    let (members, next) ← readMembers read c.position (inside.rest.length + 1) [] inside
    .ok (.object members c.position, next)

/-- Reads an array, at whose bracket the cursor stands. -/
def readArray (read : ValueReader) (c : Cursor) : Except Fault (Source × Cursor) := do
  let inside := (c.pass 1).skipBlank
  match inside.passChar? ']' with
  | some next => .ok (.array [] c.position, next)
  | none =>
    let (items, next) ← readItems read c.position (inside.rest.length + 1) inside
    .ok (.array items c.position, next)

/-- Reads a value in which containers nest at most `levels` deep. -/
def readValue : (levels : Nat) → ValueReader
  | levels, c =>
    let here := c.skipBlank
    match here.peek with
    | none => .error (here.fault .endOfJson)
    | some first =>
      if first = '{' || first = '[' then
        match levels with
        | 0 => .error (here.fault .nestingTooDeep)
        | levels + 1 =>
          if first = '{' then readObject (readValue levels) here
          else readArray (readValue levels) here
      else readScalar first here

end Source

/-- The tree of a JSON text. -/
def readJson (text : String) : Except Fault Source := do
  let (value, next) ← Source.readValue maximalNesting (.ofText text .start)
  let last := next.skipBlank
  if last.atEnd then .ok value else .error (last.fault .contentAfterValue)

end DocQuery
