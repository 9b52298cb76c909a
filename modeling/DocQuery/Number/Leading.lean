/-
The number at the start of a text.

* `leading` — the longest beginning of a text that is spelled like a number: a sign, then either
  hexadecimal digits behind `0x`, or digits with a fraction and an exponent.

Design notes: only the extent is settled here. Whether what was found is a number, and which one, is
the business of `Number.read?` and of the formats that an expression language admits; a point
without a digit behind it and an `e` without an exponent are left in the text.
-/
import DocQuery.Text.CharClass

namespace DocQuery.Number

/-- A point and the digits behind it, if there is at least one. -/
def leadingFraction : List Char → List Char
  | '.' :: cs =>
    match cs.takeWhile Char.isDigit with
    | [] => []
    | digits => '.' :: digits
  | _ => []

/-- A plus or a minus. -/
def leadingSign (cs : List Char) : List Char :=
  (cs.take 1).filter fun c => c == '+' || c == '-'

/-- The letter of an exponent, its sign and its digits, if there is at least one digit. -/
def leadingExponent : List Char → List Char
  | [] => []
  | c :: cs =>
    if c == 'e' || c == 'E' then
      let sign := leadingSign cs
      match (cs.drop sign.length).takeWhile Char.isDigit with
      | [] => []
      | digits => c :: (sign ++ digits)
    else []

/-- Digits, a fraction and an exponent, each of which may be missing. -/
def leadingDecimal (cs : List Char) : List Char :=
  let whole := cs.takeWhile Char.isDigit
  let fraction := leadingFraction (cs.drop whole.length)
  let exponent := leadingExponent (cs.drop (whole.length + fraction.length))
  whole ++ fraction ++ exponent

/-- A number without its sign. -/
def leadingMagnitude : List Char → List Char
  | '0' :: 'x' :: cs => '0' :: 'x' :: cs.takeWhile Text.isHexDigit
  | '0' :: 'X' :: cs => '0' :: 'X' :: cs.takeWhile Text.isHexDigit
  | cs => leadingDecimal cs

/-- The number at the start of a text, with the minus before it. -/
def leading : List Char → List Char
  | '-' :: cs => '-' :: leadingMagnitude cs
  | cs => leadingMagnitude cs

end DocQuery.Number
