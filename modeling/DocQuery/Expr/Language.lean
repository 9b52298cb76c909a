/-
The language that expressions are written in.

* `Operator` — a name, a place among its operands, and a precedence;
* `Language` — the operators, the keywords, the formats of numbers and the arrow of lambdas;
* `Language.standard` — the language that is used unless another one is given;
* `Language.withOperator`, `Language.withOperators`, `Language.withKeyword`,
  `Language.withNumberFormats` — changes to it;
* `Language.symbolOperators` — the names that the lexer looks for, longest first.

Design notes: an operator that is spelled like a name is found among the names of a text, every
other one among its symbols. Longest means the most bytes in UTF-8.
-/
import DocQuery.Text.CharClass

namespace DocQuery

/-- Where an operator stands. -/
inductive Fixity where
  /-- between two operands -/
  | binary
  /-- before its only operand -/
  | before
  /-- after its only operand -/
  | after
deriving DecidableEq, Repr

/-- How tightly an operator binds. -/
abbrev Precedence := UInt8

/-- The precedence just above `p`. There is none above the highest. -/
def Precedence.tighter (p : Precedence) : Precedence :=
  if p = 255 then p else p + 1

/-- An operator of a language. -/
structure Operator where
  name : String
  fixity : Fixity
  precedence : Precedence
deriving DecidableEq, Repr

/-- Whether a name consists of letters, numeric characters and underscores, so that an operator of
this name is a word. -/
def isWord (name : String) : Bool :=
  name.toList.all fun c => c == '_' || Text.isAlphanumeric c

/-- The ways of writing a number. -/
inductive NumberFormat where
  | decimal
  | exponent
  | hexadecimal
deriving DecidableEq, Repr

/-- A language for expressions. -/
structure Language where
  operators : List Operator
  keywords : List String
  numberFormats : List NumberFormat
  /-- what stands between the parameters and the body of a lambda -/
  arrow : String
deriving DecidableEq, Repr

namespace Language

/-- The operators of the standard language. -/
def standardOperators : List Operator :=
  [⟨".", .binary, 100⟩,
   ⟨"assert", .after, 90⟩,
   ⟨"!", .before, 80⟩,
   ⟨"-", .before, 80⟩,
   ⟨"*", .binary, 70⟩,
   ⟨"/", .binary, 70⟩,
   ⟨"%", .binary, 70⟩,
   ⟨"+", .binary, 60⟩,
   ⟨"-", .binary, 60⟩,
   ⟨"<", .binary, 50⟩,
   ⟨"<=", .binary, 50⟩,
   ⟨">", .binary, 50⟩,
   ⟨">=", .binary, 50⟩,
   ⟨"==", .binary, 40⟩,
   ⟨"!=", .binary, 40⟩,
   ⟨"&&", .binary, 30⟩,
   ⟨"||", .binary, 20⟩,
   ⟨":", .binary, 10⟩]

/-- The standard language. -/
def standard : Language where
  operators := standardOperators
  keywords := ["true", "false", "null", "undefined", "this", "parent"]
  numberFormats := [.decimal, .exponent, .hexadecimal]
  arrow := "=>"

/-- The language with one operator more. It takes the place of an operator of the same name and
fixity. -/
def withOperator (l : Language) (o : Operator) : Language :=
  { l with
    operators := l.operators.filter (fun p => !(p.name == o.name && p.fixity == o.fixity)) ++ [o] }

/-- The language with several operators more, one after the other. -/
def withOperators (l : Language) (os : List Operator) : Language := os.foldl withOperator l

/-- The language with one keyword more. -/
def withKeyword (l : Language) (word : String) : Language :=
  if l.keywords.contains word then l else { l with keywords := l.keywords ++ [word] }

/-- The language with these formats of numbers and no others. -/
def withNumberFormats (l : Language) (formats : List NumberFormat) : Language :=
  { l with numberFormats := formats }

/-- The operator of a name and a fixity. -/
def operator? (l : Language) (name : String) (fixity : Fixity) : Option Operator :=
  l.operators.find? fun o => o.name == name && o.fixity == fixity

/-- Whether a word is a keyword. -/
def isKeyword (l : Language) (word : String) : Bool :=
  l.keywords.contains word

/-- Whether numbers may be written in a format. -/
def admits (l : Language) (format : NumberFormat) : Bool :=
  l.numberFormats.contains format

/-- The number of bytes that a name takes in UTF-8. -/
def byteLength (name : String) : Nat :=
  name.toList.foldr (fun c bytes => c.utf8Size + bytes) 0

/-- Puts `name` before the first of `names` that is not longer. -/
def insertByLength (name : String) : List String → List String
  | [] => [name]
  | other :: names =>
    if byteLength other ≤ byteLength name then name :: other :: names
    else other :: insertByLength name names

/-- The names with the longest first. Names of one length keep their order. -/
def longestFirst (names : List String) : List String :=
  names.foldr insertByLength []

/-- The names without those that repeat the name just before them. -/
def dropRepeats : List String → List String
  | a :: b :: names => if a = b then dropRepeats (b :: names) else a :: dropRepeats (b :: names)
  | names => names

/-- The names of the operators that are symbols, longest first, as the lexer tries them. -/
def symbolOperators (l : Language) : List String :=
  dropRepeats (longestFirst ((l.operators.map (·.name)).filter fun name => !isWord name))

end Language

end DocQuery
