/-
Reading a text from left to right.

* `Cursor` — what is left of a text, and the place where that begins;
* `Cursor.pass` — the only way a cursor moves: over a number of characters;
* `Cursor.readName`, `Cursor.readNumber`, `Cursor.readQuoted` — the words that texts are made of.

Design notes: a reader gives back what it read, or the fault, together with the cursor that it
leaves behind. That cursor matters even after a fault, because reading may go on from there. Looking
ahead moves nothing.
-/
import DocQuery.Number.Leading
import DocQuery.Text.Quoted

namespace DocQuery

/-- What is left of a text, and the place of its first character. -/
structure Cursor where
  rest : List Char
  position : Position
deriving DecidableEq, Repr

/-- What a reader found, and where it stopped. -/
abbrev Reading (α : Type) := Except Fault α × Cursor

/-- What was read and the cursor behind it, or the fault alone. -/
def Reading.value {α : Type} (r : Reading α) : Except Fault (α × Cursor) :=
  r.1.map fun a => (a, r.2)

namespace Cursor

/-- A cursor at the start of `text`, whose first character stands at `origin`. -/
def ofText (text : String) (origin : Position) : Cursor := ⟨text.toList, origin⟩

/-- The cursor behind the next `n` characters. -/
def pass (c : Cursor) (n : Nat) : Cursor :=
  ⟨c.rest.drop n, c.position.after (c.rest.take n)⟩

/-- The fault of finding `problem` here. -/
def fault (c : Cursor) (problem : SyntaxProblem) : Fault := .malformed problem c.position

/-- Whether nothing is left. -/
def atEnd (c : Cursor) : Bool := c.rest.isEmpty

/-- The next character. -/
def peek (c : Cursor) : Option Char := c.rest.head?

/-- The character `n` places behind the next one. -/
def peekAt (c : Cursor) (n : Nat) : Option Char := c.rest[n]?

/-- Whether `word` comes next. -/
def startsWith (c : Cursor) (word : List Char) : Bool := word.isPrefixOf c.rest

/-- The cursor behind `word`, if that comes next. -/
def passWord? (c : Cursor) (word : List Char) : Option Cursor :=
  if c.startsWith word then some (c.pass word.length) else none

/-- The cursor behind the character `d`, if that comes next. -/
def passChar? (c : Cursor) (d : Char) : Option Cursor := c.passWord? [d]

/-- Passes the character `d`, which has to come next. -/
def expect (c : Cursor) (d : Char) : Reading Unit :=
  match c.passChar? d with
  | some next => (.ok (), next)
  | none => (.error (c.fault (.characterExpected d)), c)

/-- The cursor behind the white space that comes next. -/
def skipBlank (c : Cursor) : Cursor := c.pass (c.rest.takeWhile Text.isBlank).length

/-- Reads a name. Any character of a name may come first here, digits too. -/
def readName (c : Cursor) : Reading String :=
  match c.rest.takeWhile Text.isNameChar with
  | [] => (.error (c.fault .nameExpected), c)
  | name => (.ok (String.ofList name), c.pass name.length)

/-- Reads the spelling of a number. A minus that is alone is passed, but it is no number. -/
def readNumber (c : Cursor) : Reading String :=
  let spelling := Number.leading c.rest
  let next := c.pass spelling.length
  if spelling = [] || spelling = ['-'] then (.error (c.fault .numberExpected), next)
  else (.ok (String.ofList spelling), next)

/-- A string that was read, with the columns of its characters and of the closing quote. -/
structure QuotedText where
  text : String
  columns : List Nat
deriving DecidableEq, Repr

/-- Reads a string between quotes. -/
def readQuoted (c : Cursor) : Reading QuotedText :=
  match Text.readQuoted c.rest with
  | .ok quoted =>
    (.ok ⟨String.ofList quoted.text, quoted.offsets.map (c.position.column + ·)⟩,
      c.pass quoted.width)
  | .error wrong =>
    (.error (.malformed wrong.problem (c.position.shifted wrong.offset)), c.pass wrong.width)

end Cursor

end DocQuery
