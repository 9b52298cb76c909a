/-
From the text of an expression to its tokens.

* `nextToken` — the token that a cursor stands at;
* `tokenize` — all tokens of a text.

Design notes: which kind of token begins is decided by its first character, in a fixed order, so
that a digit always begins a number and a letter always a name. Every token takes a character at
least, so the length of the text bounds their number. For the same reason an empty word is never
found: a language whose arrow is empty has no arrow in any text, instead of one everywhere, of which
no text would ever be used up.
-/
import DocQuery.Expr.Language
import DocQuery.Expr.Token
import DocQuery.Text.Cursor

namespace DocQuery

/-- The first of `words` that comes next, unless it is empty, and the cursor behind it. -/
def Cursor.passOneOf? (c : Cursor) : List String → Option (String × Cursor)
  | [] => none
  | word :: words =>
    match word.toList with
    | [] => c.passOneOf? words
    | cs =>
      match c.passWord? cs with
      | some next => some (word, next)
      | none => c.passOneOf? words

/-- The token of a single character. -/
def punctuation? : Char → Option TokenKind
  | '(' => some .leftParen
  | ')' => some .rightParen
  | '[' => some .leftBracket
  | ']' => some .rightBracket
  | ',' => some .comma
  | _ => none

/-- The token that begins with the character `first`, at which the cursor stands, and the cursor
behind it. -/
def nextToken (l : Language) (symbols : List String) (first : Char) (c : Cursor) :
    Except Fault (TokenKind × Cursor) :=
  if first.isDigit then do
    let (digits, next) ← Reading.value c.readNumber
    .ok (.number digits, next)
  else if first = '\'' || first = '"' then do
    let (quoted, next) ← Reading.value c.readQuoted
    .ok (.text quoted.text, next)
  else if Text.isNameStart first then do
    let (name, next) ← Reading.value c.readName
    .ok (.name name, next)
  else
    match c.passOneOf? [l.arrow] with
    | some (_, next) => .ok (.arrow, next)
    | none =>
      match punctuation? first with
      | some kind => .ok (kind, c.pass 1)
      | none =>
        match c.passOneOf? symbols with
        | some (symbol, next) => .ok (.operator symbol, next)
        | none => .error (c.fault (.unexpectedCharacter first))

/-- The tokens from a cursor on. -/
def tokensFrom (l : Language) (symbols : List String) : (fuel : Nat) → Cursor → Except Fault Tokens
  | 0, c => .ok ⟨[], c.position⟩
  | fuel + 1, c =>
    let start := c.skipBlank
    match start.peek with
    | none => .ok ⟨[], start.position⟩
    | some first => do
      let (kind, next) ← nextToken l symbols first start
      let rest ← tokensFrom l symbols fuel next
      .ok ⟨⟨kind, start.position⟩ :: rest.list, rest.finish⟩

/-- The tokens of a text whose first character stands at `origin`. -/
def tokenize (l : Language) (text : String) (origin : Position) : Except Fault Tokens :=
  let c := Cursor.ofText text origin
  tokensFrom l l.symbolOperators (c.rest.length + 1) c

end DocQuery
