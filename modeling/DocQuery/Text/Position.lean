/-
Places in a text: lines and columns, both counted from one.

* `Position.step` — where the next character stands once one character has been passed;
* `Position.after` — where the next character stands once a whole text has been passed.

Design notes: a column counts characters, so a place depends only on where the text begins and on
the characters passed. Every reader moves by `Position.after`, never by other means.
-/
namespace DocQuery

/-- A line and a column of a text, counted from one. -/
structure Position where
  line : Nat
  column : Nat
deriving DecidableEq, Repr

namespace Position

/-- The place of the first character of a text. -/
def start : Position := ⟨1, 1⟩

/-- The place `offset` characters further on the same line. -/
def shifted (p : Position) (offset : Nat) : Position :=
  ⟨p.line, p.column + offset⟩

/-- The place after the character `c`, which stands at `p`. -/
def step (p : Position) (c : Char) : Position :=
  if c = '\n' then ⟨p.line + 1, 1⟩ else ⟨p.line, p.column + 1⟩

/-- The place after the text `cs`, which begins at `p`. -/
def after (p : Position) (cs : List Char) : Position :=
  cs.foldl step p

@[simp] theorem after_nil (p : Position) : p.after [] = p := rfl

@[simp] theorem after_cons (p : Position) (c : Char) (cs : List Char) :
    p.after (c :: cs) = (p.step c).after cs := rfl

theorem after_append (p : Position) (cs ds : List Char) :
    p.after (cs ++ ds) = (p.after cs).after ds := by
  simp [after]

/-- A place as it is shown to a user, `line:column`. -/
def render (p : Position) : String :=
  toString p.line ++ ":" ++ toString p.column

end Position

end DocQuery
