/-
The tokens of an expression.

* `TokenKind` — what a token is, with its text where that varies;
* `TokenKind.render` — how a token is shown in a message;
* `Tokens` — the tokens of a text and the place where the text ends.
-/
import DocQuery.Text.Position

namespace DocQuery

/-- What a token of an expression is. -/
inductive TokenKind where
  | name (spelling : String)
  | number (digits : String)
  | text (content : String)
  | operator (symbol : String)
  | leftParen
  | rightParen
  | leftBracket
  | rightBracket
  | comma
  | arrow
  /-- where the text ends -/
  | finish
deriving DecidableEq, Repr

/-- A token as it is shown in a message. -/
def TokenKind.render : TokenKind → String
  | .name spelling => "'" ++ spelling ++ "'"
  | .number digits => "'" ++ digits ++ "'"
  | .operator symbol => "'" ++ symbol ++ "'"
  | .text content => "string '" ++ content ++ "'"
  | .leftParen => "'('"
  | .rightParen => "')'"
  | .leftBracket => "'['"
  | .rightBracket => "']'"
  | .comma => "','"
  | .arrow => "'=>'"
  | .finish => "end of expression"

/-- A token and the place of its first character. -/
structure Token where
  kind : TokenKind
  position : Position
deriving DecidableEq, Repr

/-- The tokens still to be read, and the place where the text ends. -/
structure Tokens where
  list : List Token
  finish : Position

namespace Tokens

/-- The next token. After the last one it is the end of the text. -/
def peek (ts : Tokens) : Token :=
  ts.list.headD ⟨.finish, ts.finish⟩

/-- The tokens after the next `n`. -/
def drop (ts : Tokens) (n : Nat) : Tokens :=
  ⟨ts.list.drop n, ts.finish⟩

/-- The tokens after the next one. -/
def next (ts : Tokens) : Tokens := ts.drop 1

end Tokens

end DocQuery
