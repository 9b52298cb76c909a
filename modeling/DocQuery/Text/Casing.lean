/-
Lower and upper case of a text.

* `lowercase` — every character in lower case, with the final form of sigma where it ends a word;
* `uppercase` — every character in upper case; some characters become several.

Design notes: the case of a text is not the case of its characters one by one. A capital sigma
becomes a final sigma when a cased letter stands before it and none after it, where characters
such as accents and apostrophes are looked through (`nextIsCased`).
-/
import DocQuery.Text.Property.Cased
import DocQuery.Text.Property.CaseIgnorable
import DocQuery.Text.Property.LowerCase
import DocQuery.Text.Property.UpperCase

namespace DocQuery.Text

/-- The characters that a table of runs and a table of expansions give for `c`; `c` itself when
neither has it. -/
def mapCase (runs : Array ShiftedRun) (expanding : Array (Nat × List Nat)) (c : Char) :
    List Char :=
  match expanding.find? fun entry => entry.1 == c.toNat with
  | some entry => entry.2.map Char.ofNat
  | none =>
    match runs.findSome? fun run => run.image? c.toNat with
    | some code => [Char.ofNat code]
    | none => [c]

/-- The lower case of one character, taken by itself. -/
def lowerChar (c : Char) : List Char :=
  if c.toNat < 128 then [c.toLower] else mapCase Property.lowerCase Property.lowerCaseExpanding c

/-- The upper case of one character. -/
def upperChar (c : Char) : List Char :=
  if c.toNat < 128 then [c.toUpper] else mapCase Property.upperCase Property.upperCaseExpanding c

/-- Whether the first character that is not looked through has a case. -/
def nextIsCased (cs : List Char) : Bool :=
  match cs.dropWhile fun c => Property.caseIgnorable.contains c.toNat with
  | [] => false
  | c :: _ => Property.cased.contains c.toNat

/-- The lower case of a text that follows the characters `before`, nearest first. -/
def lowercaseAfter (before : List Char) : List Char → List Char
  | [] => []
  | c :: rest =>
    let lowered :=
      if c = 'Σ' then
        if nextIsCased before && !nextIsCased rest then ['ς'] else ['σ']
      else
        lowerChar c
    lowered ++ lowercaseAfter (c :: before) rest

/-- A text in lower case. -/
def lowercase (cs : List Char) : List Char :=
  lowercaseAfter [] cs

/-- A text in upper case. -/
def uppercase (cs : List Char) : List Char :=
  cs.flatMap upperChar

end DocQuery.Text
