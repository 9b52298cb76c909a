/-
Strings between quotes.

* `Quoted` — a string that was read: its characters, where each one was spelled, and how far the
  reading went;
* `Misquoted` — what is wrong with a text that should begin with such a string;
* `readQuoted` — the reading. A backslash introduces the escapes of JSON and `\'`.

Design notes: offsets count characters from the opening quote. A string ends before the line does,
so an offset is also a distance in columns.
-/
import DocQuery.Fault
import DocQuery.Text.CharClass

namespace DocQuery.Text

/-- A string between quotes. -/
structure Quoted where
  text : List Char
  /-- where each character of the text was spelled, and then where the closing quote stands -/
  offsets : List Nat
  /-- how many characters the string takes, with both quotes -/
  width : Nat
deriving DecidableEq, Repr

/-- What is wrong with a string between quotes. -/
structure Misquoted where
  problem : SyntaxProblem
  /-- where it shows -/
  offset : Nat
  /-- how many characters were passed when it showed -/
  width : Nat
deriving DecidableEq, Repr

/-- What stands at the start of the rest of a string. -/
inductive Piece where
  /-- the closing quote -/
  | close
  /-- a character, spelled with `width` characters -/
  | char (c : Char) (width : Nat)
  /-- no end of the string, after `width` characters more -/
  | cut (width : Nat)
  /-- an escape that means nothing, seen after `width` characters -/
  | wrong (problem : SyntaxProblem) (width : Nat)
deriving DecidableEq, Repr

/-- The character that a backslash before `c` stands for. -/
def simpleEscape? : Char → Option Char
  | 'n' => some '\n'
  | 't' => some '\t'
  | 'r' => some '\r'
  | 'b' => some '\x08'
  | 'f' => some '\x0c'
  | '/' => some '/'
  | '\\' => some '\\'
  | '"' => some '"'
  | '\'' => some '\''
  | _ => none

/-- The value of the four hexadecimal digits at the start of a text. If one of them is missing, the
number of those before it. -/
def readFourDigits (cs : List Char) : Except Nat Nat :=
  let digits := (cs.take 4).takeWhile isHexDigit
  if digits.length = 4 then
    .ok (digits.foldl (fun value c => value * 16 + (hexDigitValue? c).getD 0) 0)
  else
    .error digits.length

/-- The character of a pair of surrogates. Of the second one only the last ten bits are taken. -/
def surrogatePair (high low : Nat) : Char :=
  Char.ofNat (0x10000 + (high - 0xD800) * 0x400 + low % 0x400)

/-- The escape whose digits are at the start of `cs`, behind a backslash and a `u`. -/
def unicodePiece (cs : List Char) : Piece :=
  match readFourDigits cs with
  | .error given => .wrong .invalidUnicodeEscape (2 + given)
  | .ok code =>
    if 0xD800 ≤ code && code < 0xDC00 then
      match cs.drop 4 with
      | '\\' :: 'u' :: rest =>
        match readFourDigits rest with
        | .error given => .wrong .invalidUnicodeEscape (8 + given)
        | .ok low => .char (surrogatePair code low) 12
      | _ => .wrong .unpairedSurrogate 6
    else if code.isValidChar then .char (Char.ofNat code) 6
    else .wrong .invalidUnicodeEscape 6

/-- The escape at the start of `cs`, behind a backslash. -/
def escapePiece : List Char → Piece
  | [] => .cut 1
  | 'u' :: cs => unicodePiece cs
  | c :: _ =>
    match simpleEscape? c with
    | some meaning => .char meaning 2
    | none => .wrong (.invalidEscape c) 2

/-- What stands at the start of the rest of a string that ends with `quote`. -/
def nextPiece (quote : Char) : List Char → Piece
  | [] => .cut 0
  | c :: cs =>
    if c = '\n' then .cut 0
    else if c = quote then .close
    else if c = '\\' then escapePiece cs
    else .char c 1

/-- The rest of a string, `offset` characters behind its opening quote. Every piece takes a
character at least, so the length of `cs` is enough `fuel`. -/
def readQuotedRest (quote : Char) : (fuel : Nat) → (offset : Nat) → (cs : List Char) →
    Except Misquoted Quoted
  | 0, offset, _ => .error ⟨.unterminatedString, 0, offset⟩
  | fuel + 1, offset, cs =>
    match nextPiece quote cs with
    | .close => .ok ⟨[], [offset], offset + 1⟩
    | .cut width => .error ⟨.unterminatedString, 0, offset + width⟩
    | .wrong problem width => .error ⟨problem, offset + 1, offset + width⟩
    | .char c width => do
      let rest ← readQuotedRest quote fuel (offset + width) (cs.drop width)
      .ok { rest with text := c :: rest.text, offsets := offset :: rest.offsets }

/-- The string at the start of a text. -/
def readQuoted : List Char → Except Misquoted Quoted
  | [] => .error ⟨.stringExpected, 0, 0⟩
  | quote :: cs =>
    if quote = '\'' || quote = '"' then readQuotedRest quote (cs.length + 1) 1 cs
    else .error ⟨.quoteExpected, 0, 0⟩

end DocQuery.Text
