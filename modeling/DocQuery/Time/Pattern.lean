/-
Patterns of dates and times of day, such as `%d/%m/%Y %H:%M`.

* `Pattern.ofText?` — the pattern that a text spells;
* `Fields` — what a text tells about a date and a time of day, read along a pattern;
* `Moment.read?` — the moment a text names: in the form of RFC 3339, or by one of the given
  patterns, in universal time.

Design notes: the percent signs that are known are `%Y`, `%m`, `%b`, `%d`, `%j`, `%H`, `%I`, `%p`,
`%M`, `%S` and `%%`. They are a selection of those in use, and a text with any other one spells no
pattern, so no moment is read by it. Reading is lenient about width. White space before a number is passed over, a number
may have fewer digits than its field is wide, and a year may have a sign. What is read twice has to
agree, and nothing may be left over.
-/
import DocQuery.Time.Rfc3339
import DocQuery.Text.CharClass

namespace DocQuery.Time

open Text Number

/-- One item of a pattern. -/
inductive PatternItem where
  /-- this very character -/
  | literal (c : Char)
  /-- any amount of white space -/
  | blank
  /-- `%Y` -/
  | year
  /-- `%m` -/
  | month
  /-- `%b`, the first three letters of the English name -/
  | monthName
  /-- `%d` -/
  | day
  /-- `%j` -/
  | dayOfYear
  /-- `%H` -/
  | hour
  /-- `%I`, from one to twelve -/
  | hourOfHalf
  /-- `%p`, before or after noon -/
  | half
  /-- `%M` -/
  | minute
  /-- `%S` -/
  | second
deriving DecidableEq, Repr

/-- A pattern is read item by item. -/
abbrev Pattern := List PatternItem

/-- The item that a letter stands for after a percent sign. -/
def PatternItem.ofLetter? : Char → Option PatternItem
  | 'Y' => some .year
  | 'm' => some .month
  | 'b' => some .monthName
  | 'd' => some .day
  | 'j' => some .dayOfYear
  | 'H' => some .hour
  | 'I' => some .hourOfHalf
  | 'p' => some .half
  | 'M' => some .minute
  | 'S' => some .second
  | '%' => some (.literal '%')
  | _ => none

/-- The pattern that a text spells, unless it has a percent sign with an unknown letter. -/
def Pattern.ofText? : List Char → Option Pattern
  | [] => some []
  | ['%'] => none
  | '%' :: letter :: rest => do
    let item ← PatternItem.ofLetter? letter
    let items ← Pattern.ofText? rest
    some (item :: items)
  | c :: rest =>
    (Pattern.ofText? rest).map fun items => (if isBlank c then .blank else .literal c) :: items

/-- What is known about a date and a time of day. An hour is known by its half of the day and its
place in that half. -/
structure Fields where
  year : Option Int
  month : Option Nat
  day : Option Nat
  dayOfYear : Option Nat
  half : Option Nat
  hourOfHalf : Option Nat
  minute : Option Nat
  second : Option Nat

/-- Nothing is known. -/
def Fields.none : Fields := ⟨.none, .none, .none, .none, .none, .none, .none, .none⟩

/-- Known once more: the new value has to agree with the known one. -/
def agree? {α : Type} [DecidableEq α] (known : Option α) (value : α) : Option (Option α) :=
  match known with
  | .none => some (some value)
  | .some old => if old = value then some known else .none

/-- A number between two bounds. -/
def within? (least greatest n : Nat) : Option Nat :=
  if least ≤ n ∧ n ≤ greatest then some n else none

/-- An unsigned number of one to `width` digits, after white space. -/
def number? (width : Nat) (cs : List Char) : Option (Nat × List Char) :=
  let cs := dropBlank cs
  let digits := (cs.take width).takeWhile Char.isDigit
  if digits.isEmpty then none else some (decimalValue digits, cs.drop digits.length)

/-- All the digits at the front of a text, at least one. -/
def allDigits? (cs : List Char) : Option (Int × List Char) :=
  let digits := cs.takeWhile Char.isDigit
  if digits.isEmpty then none else some ((decimalValue digits : Int), cs.drop digits.length)

/-- A year: up to four digits, or a sign and any number of digits. -/
def year? (cs : List Char) : Option (Int × List Char) :=
  match dropBlank cs with
  | '-' :: rest => (allDigits? rest).map fun (n, rest) => (-n, rest)
  | '+' :: rest => allDigits? rest
  | cs => (number? 4 cs).map fun (n, rest) => ((n : Int), rest)

/-- The first three letters of the English names of the months. -/
def monthNames : List String :=
  ["jan", "feb", "mar", "apr", "may", "jun", "jul", "aug", "sep", "oct", "nov", "dec"]

/-- The month whose name starts the text, in any case. -/
def monthName? (cs : List Char) : Option (Nat × List Char) :=
  let name := String.ofList ((cs.take 3).map Char.toLower)
  let index := monthNames.idxOf name
  if index < 12 then some (index + 1, cs.drop 3) else none

/-- Before noon is the half zero, after noon the half one. -/
def half? (cs : List Char) : Option (Nat × List Char) :=
  match (cs.take 2).map Char.toLower with
  | ['a', 'm'] => some (0, cs.drop 2)
  | ['p', 'm'] => some (1, cs.drop 2)
  | _ => none

namespace Fields

/-- Reads one item from the front of a text. -/
def readItem (fields : Fields) (cs : List Char) : PatternItem → Option (Fields × List Char)
  | .literal c => (skip? c cs).map fun rest => (fields, rest)
  | .blank => some (fields, dropBlank cs)
  | .year => do
    let (n, rest) ← year? cs
    let known ← agree? fields.year n
    some ({ fields with year := known }, rest)
  | .month => do
    let (n, rest) ← number? 2 cs
    let known ← agree? fields.month (← within? 1 12 n)
    some ({ fields with month := known }, rest)
  | .monthName => do
    let (n, rest) ← monthName? cs
    let known ← agree? fields.month n
    some ({ fields with month := known }, rest)
  | .day => do
    let (n, rest) ← number? 2 cs
    let known ← agree? fields.day (← within? 1 31 n)
    some ({ fields with day := known }, rest)
  | .dayOfYear => do
    let (n, rest) ← number? 3 cs
    let known ← agree? fields.dayOfYear (← within? 1 366 n)
    some ({ fields with dayOfYear := known }, rest)
  | .hour => do
    let (n, rest) ← number? 2 cs
    let n ← within? 0 23 n
    let half ← agree? fields.half (n / 12)
    let hourOfHalf ← agree? fields.hourOfHalf (n % 12)
    some ({ fields with half := half, hourOfHalf := hourOfHalf }, rest)
  | .hourOfHalf => do
    let (n, rest) ← number? 2 cs
    let known ← agree? fields.hourOfHalf ((← within? 1 12 n) % 12)
    some ({ fields with hourOfHalf := known }, rest)
  | .half => do
    let (n, rest) ← half? cs
    let known ← agree? fields.half n
    some ({ fields with half := known }, rest)
  | .minute => do
    let (n, rest) ← number? 2 cs
    let known ← agree? fields.minute (← within? 0 59 n)
    some ({ fields with minute := known }, rest)
  | .second => do
    let (n, rest) ← number? 2 cs
    let known ← agree? fields.second (← within? 0 60 n)
    some ({ fields with second := known }, rest)

/-- Reads a whole text along a pattern. -/
def read (fields : Fields) (cs : List Char) : Pattern → Option Fields
  | [] => if cs.isEmpty then some fields else .none
  | item :: pattern => do
    let (fields, rest) ← fields.readItem cs item
    fields.read rest pattern

/-- The date that is known: by month and day, or by the day of the year. All that is known of it
has to agree. -/
def date? (fields : Fields) : Option Date := do
  let year ← fields.year
  let date ←
    match fields.month, fields.day, fields.dayOfYear with
    | some month, some day, _ => some ⟨year, month, day⟩
    | _, _, some dayOfYear => Date.ofOrdinal? year dayOfYear
    | _, _, .none => .none
  let agrees := date.isValid && fields.month.getD date.month = date.month &&
    fields.day.getD date.day = date.day && fields.dayOfYear.getD date.ordinal = date.ordinal
  if agrees then some date else .none

/-- The moment that is known, in universal time. The second may be missing. -/
def moment? (fields : Fields) : Option Moment := do
  let date ← fields.date?
  let half ← fields.half
  let hourOfHalf ← fields.hourOfHalf
  let minute ← fields.minute
  Moment.ofParts? date (12 * half + hourOfHalf) minute (fields.second.getD 0) 0 0

end Fields

/-- The moment that a text names by a pattern: with a time of day, or the start of a day. -/
def Pattern.moment? (pattern : Pattern) (cs : List Char) : Option Moment := do
  let fields ← Fields.none.read cs pattern
  fields.moment?.orElse fun _ => fields.date?.map Moment.midnight

/-- The moment that a text names: in the form of RFC 3339, or by the first of the patterns that
fits. White space around it does not count. -/
def Moment.read? (patterns : List String) (cs : List Char) : Option Moment :=
  let cs := trim cs
  (Moment.ofRfc3339? cs).orElse fun _ =>
    patterns.findSome? fun text => (Pattern.ofText? text.toList).bind fun p => p.moment? cs

end DocQuery.Time
