/-
Numbers of JSON text.

* `Numeral.read?` — the numeral that a text spells, if it is a number by the JSON grammar;
* `Numeral.ofDouble?` — the numeral of a computed number.

Design notes: an integer keeps its exact value as long as it fits 64 bits, unsigned or signed. A
larger one, a negative zero and every number with a fraction or an exponent is a double, which is
computed from the digits that fit 64 bits (`Significand`); a number beyond the largest double is
none.
-/
import DocQuery.Json.Basic
import DocQuery.Number.Significand

namespace DocQuery.Numeral

open Number

/-- The numeral of a double, unless it is infinite or undefined. -/
def ofDouble? (x : Float) : Option Numeral :=
  if isFinite x then some (.double x) else none

/-- Whether the digits before the point have no zero in front. -/
def plainWhole : List Char → Bool
  | [] => false
  | ['0'] => true
  | '0' :: _ => false
  | _ => true

/-- The fraction of a number and what follows it; a point needs a digit after it. -/
def splitFraction? : List Char → Option (List Char × List Char)
  | '.' :: rest =>
    let digits := rest.takeWhile Char.isDigit
    if digits.isEmpty then none else some (digits, rest.dropWhile Char.isDigit)
  | rest => some ([], rest)

/-- An integer of 64 bits: up to `2 ^ 64 - 1`, or from `-2 ^ 63` to `-1` after a minus sign. -/
def integer? (negative : Bool) (magnitude : Nat) : Option Numeral :=
  if negative then
    if 0 < magnitude ∧ magnitude ≤ Nat.pow 2 63 then some (.integer (-magnitude)) else none
  else
    if magnitude < Nat.pow 2 64 then some (.integer magnitude) else none

/-- The number that a text spells by the JSON grammar: an optional minus sign, digits without a
zero in front, an optional fraction, an optional exponent. -/
def read? (cs : List Char) : Option Numeral :=
  let (negative, magnitude) :=
    match cs with
    | '-' :: rest => (true, rest)
    | _ => (false, cs)
  let whole := magnitude.takeWhile Char.isDigit
  if !plainWhole whole then
    none
  else
    match splitFraction? (magnitude.dropWhile Char.isDigit) with
    | none => none
    | some (fraction, tail) =>
      match readExponent? tail with
      | none => none
      | some exponent =>
        let exact := if fraction.isEmpty && tail.isEmpty then integer? negative (decimalValue whole)
          else none
        let value := (Significand.ofDigits whole fraction exponent).toFloat
        exact.orElse fun _ => ofDouble? (if negative then -value else value)

end DocQuery.Numeral
