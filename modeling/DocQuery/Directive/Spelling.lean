/-
How expressions are written inside the strings of a document.

* `closingOffset?` — where the parenthesis that a text begins with is closed;
* `callBody?` — the expression of a string that is one call such as `$value(Total)`;
* `splitInterpolation` — the expressions of a string such as `Total: $(Total)`, with the text around
  them.

Design notes: parentheses between quotes do not count, and inside quotes a backslash takes the next
character with it. Offsets count the characters of the string as it reads, not as it is escaped.
-/
namespace DocQuery

/-- What is known of a text before one of its characters. -/
structure ParenScan where
  /-- how many parentheses are open -/
  depth : Nat
  /-- the quote that ends the current quotation -/
  quote : Option Char
  /-- whether the character is taken by a backslash before it -/
  isEscaped : Bool
deriving DecidableEq, Repr

/-- What is known after the character `c`. -/
def ParenScan.step (s : ParenScan) (c : Char) : ParenScan :=
  match s.quote with
  | some q =>
    if s.isEscaped then { s with isEscaped := false }
    else if c = '\\' then { s with isEscaped := true }
    else if c = q then { s with quote := none }
    else s
  | none =>
    if c = '\'' || c = '"' then { s with quote := some c }
    else if c = '(' then { s with depth := s.depth + 1 }
    else if c = ')' then { s with depth := s.depth - 1 }
    else s

/-- Where the last open parenthesis is closed. -/
def ParenScan.closing? (s : ParenScan) : List Char → Option Nat
  | [] => none
  | c :: cs =>
    if s.quote.isNone && c == ')' && s.depth ≤ 1 then some 0
    else ((s.step c).closing? cs).map (· + 1)

/-- Where the parenthesis at the start of a text is closed. -/
def closingOffset? (cs : List Char) : Option Nat :=
  ParenScan.closing? ⟨0, none, false⟩ cs

/-- The start of a string that is computed as a whole. -/
def valueMarker : List Char := ['$', 'v', 'a', 'l', 'u', 'e', '(']

/-- The start of a string that other items take the place of. -/
def mergeMarker : List Char := ['$', 'm', 'e', 'r', 'g', 'e', '(']

/-- The name of a member that the members of other objects take the place of. -/
def copyFieldsName : String := "$copyFields"

/-- Where the parenthesis at the end of a marker is closed in a string that begins with it. -/
def callEnd? (marker cs : List Char) : Option Nat :=
  (closingOffset? (cs.drop (marker.length - 1))).map (· + (marker.length - 1))

/-- The expression of a string that consists of a marker, an expression and a closing parenthesis.
-/
def callBody? (marker cs : List Char) : Option (List Char) :=
  if marker.isPrefixOf cs then
    match callEnd? marker cs with
    | some last => if last + 1 = cs.length then some ((cs.take last).drop marker.length) else none
    | none => none
  else none

/-- A part of a string: text as it is, or an expression and where it begins. -/
inductive Fragment where
  | text (content : List Char)
  | expression (content : List Char) (offset : Nat)
deriving DecidableEq, Repr

/-- The text before the first expression of a string. -/
def plainStart : List Char → List Char
  | [] => []
  | '$' :: '(' :: _ => []
  | c :: cs => c :: plainStart cs

/-- Whether a string has an expression in it. -/
def hasExpression (cs : List Char) : Bool :=
  plainStart cs != cs

/-- The parts of the rest of a string, `offset` characters from its start. A part takes a character
at least, so the length of the rest is enough fuel. The first expression without an end is given by
its place. -/
def splitFrom : (fuel : Nat) → (offset : Nat) → List Char → Except Nat (List Fragment)
  | 0, _, _ => .ok []
  | fuel + 1, offset, cs =>
    let plain := plainStart cs
    let before := if plain.isEmpty then [] else [Fragment.text plain]
    match cs.drop plain.length with
    | [] => .ok before
    | _ :: inside =>
      match closingOffset? inside with
      | none => .error (offset + plain.length)
      | some length => do
        let here := offset + plain.length + 2
        let rest ← splitFrom fuel (here + length) (inside.drop (length + 1))
        .ok (before ++ .expression ((inside.take length).drop 1) here :: rest)

/-- The parts of a string. -/
def splitInterpolation (cs : List Char) : Except Nat (List Fragment) :=
  splitFrom (cs.length + 1) 0 cs

end DocQuery
