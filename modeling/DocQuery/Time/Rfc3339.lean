/-
Moments read from the form of RFC 3339.

* `Moment.ofRfc3339?` — `2024-03-01T08:30:00.5+02:00`, where a small `t` or a space may stand for
  the `T`, and a `Z` for the distance zero.
-/
import DocQuery.Time.Moment
import DocQuery.Number.Reading

namespace DocQuery.Time

open Number

/-- A number of exactly `width` digits and what follows it. -/
def fixedNumber? (width : Nat) (cs : List Char) : Option (Nat × List Char) :=
  let digits := cs.take width
  if digits.length = width && digits.all Char.isDigit then
    some (decimalValue digits, cs.drop width)
  else
    none

/-- What follows the character `c`, if the text starts with it. -/
def skip? (c : Char) : List Char → Option (List Char)
  | d :: rest => if c = d then some rest else none
  | [] => none

/-- A fraction of a second as nanoseconds; what is smaller is left out. -/
def nanosecond? : List Char → Option (Nat × List Char)
  | '.' :: rest =>
    let digits := rest.takeWhile Char.isDigit
    if digits.isEmpty then none
    else
      let kept := digits.take 9
      some (decimalValue kept * Nat.pow 10 (9 - kept.length), rest.dropWhile Char.isDigit)
  | rest => some (0, rest)

/-- The distance from universal time, in minutes: `Z`, or signed hours and minutes. -/
def offset? (cs : List Char) : Option Int :=
  match cs with
  | ['Z'] => some 0
  | ['z'] => some 0
  | sign :: rest =>
    if sign = '+' || sign = '-' || sign = '−' then do
      let (hours, rest) ← fixedNumber? 2 rest
      let rest ← skip? ':' rest
      let (minutes, rest) ← fixedNumber? 2 rest
      if rest.isEmpty && hours < 24 && minutes < 60 then
        let distance : Int := hours * 60 + minutes
        some (if sign = '+' then distance else -distance)
      else
        none
    else
      none
  | [] => none

namespace Moment

/-- The moment with the given parts, if its date and its time of day exist. -/
def ofParts? (date : Date) (hour minute second nanosecond : Nat) (offset : Int) : Option Moment :=
  if date.isValid && hour < 24 && minute < 60 && second ≤ 60 then
    some ⟨date, hour, minute, second, nanosecond, offset⟩
  else
    none

/-- The moment that a text names in the form of RFC 3339. -/
def ofRfc3339? (cs : List Char) : Option Moment := do
  let (year, cs) ← fixedNumber? 4 cs
  let cs ← skip? '-' cs
  let (month, cs) ← fixedNumber? 2 cs
  let cs ← skip? '-' cs
  let (day, cs) ← fixedNumber? 2 cs
  let cs ← ((skip? 'T' cs).orElse fun _ => skip? 't' cs).orElse fun _ => skip? ' ' cs
  let (hour, cs) ← fixedNumber? 2 cs
  let cs ← skip? ':' cs
  let (minute, cs) ← fixedNumber? 2 cs
  let cs ← skip? ':' cs
  let (second, cs) ← fixedNumber? 2 cs
  let (nanosecond, cs) ← nanosecond? cs
  let offset ← offset? cs
  ofParts? ⟨year, month, day⟩ hour minute second nanosecond offset

end Moment

end DocQuery.Time
