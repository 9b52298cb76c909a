/-
Numbers read from text.

* `readDecimal?` — decimal notation with an optional sign, fraction and exponent, and the words
  for infinity and for what is no number;
* `readHexadecimal?` — signed hexadecimal digits that fit 64 bits;
* `readNumber?` — either of them, after one optional minus sign.

Design notes: the value of a decimal is the double nearest to it. `scaled` settles the magnitudes
that certainly overflow or vanish first, so that no power of ten is formed for them.
-/
import DocQuery.Number.Layout
import DocQuery.Text.CharClass

namespace DocQuery.Number

open Text

/-- The value of a run of decimal digits. -/
def decimalValue (digits : List Char) : Nat :=
  digits.foldl (fun value c => 10 * value + (c.toNat - '0'.toNat)) 0

/-- The value of a run of hexadecimal digits. -/
def hexadecimalValue (digits : List Char) : Nat :=
  digits.foldl (fun value c => 16 * value + (hexDigitValue? c).getD 0) 0

/-- The double nearest to `digits * 10 ^ exponent`. -/
def scaled (digits : Nat) (exponent : Int) : Float :=
  let leading := (digitsOf digits).length + exponent
  if digits = 0 then 0.0
  else if 310 < leading then infinity
  else if leading < -330 then 0.0
  else Float.ofScientific digits (decide (exponent < 0)) exponent.natAbs

/-- The exponent that a text consists of: nothing, or `e` with an optional sign and digits. -/
def readExponent? : List Char → Option Int
  | [] => some 0
  | e :: rest =>
    if e = 'e' || e = 'E' then
      let (negative, digits) :=
        match rest with
        | '-' :: digits => (true, digits)
        | '+' :: digits => (false, digits)
        | digits => (false, digits)
      if digits.isEmpty || !digits.all Char.isDigit then none
      else some (if negative then -decimalValue digits else decimalValue digits)
    else
      none

/-- An unsigned number in decimal notation. A digit has to stand before or after the point. -/
def readUnsigned? (cs : List Char) : Option Float :=
  let whole := cs.takeWhile Char.isDigit
  let rest := cs.dropWhile Char.isDigit
  let (fraction, tail) :=
    match rest with
    | '.' :: more => (more.takeWhile Char.isDigit, more.dropWhile Char.isDigit)
    | _ => ([], rest)
  if whole.isEmpty && fraction.isEmpty then
    none
  else
    (readExponent? tail).map fun exponent =>
      scaled (decimalValue (whole ++ fraction)) (exponent - fraction.length)

/-- The words that stand for a number, in any case. -/
def readWord? (cs : List Char) : Option Float :=
  let word := String.ofList (cs.map Char.toLower)
  if word = "inf" || word = "infinity" then some infinity
  else if word = "nan" then some notANumber
  else none

/-- A number in decimal notation with an optional sign. -/
def readDecimal? (cs : List Char) : Option Float :=
  let (negative, magnitude) :=
    match cs with
    | '-' :: rest => (true, rest)
    | '+' :: rest => (false, rest)
    | _ => (false, cs)
  let value := (readWord? magnitude).orElse fun _ => readUnsigned? magnitude
  value.map fun x => if negative then -x else x

/-- An integer of 64 bits in hexadecimal digits with an optional sign. -/
def readHexadecimal? (cs : List Char) : Option Int :=
  let (negative, digits) :=
    match cs with
    | '-' :: rest => (true, rest)
    | '+' :: rest => (false, rest)
    | _ => (false, cs)
  if digits.isEmpty || !digits.all isHexDigit then
    none
  else
    let magnitude : Int := hexadecimalValue digits
    let value := if negative then -magnitude else magnitude
    if -Nat.pow 2 63 ≤ value && value ≤ Nat.pow 2 63 - 1 then some value else none

/-- The number that a text stands for: an optional minus sign, then hexadecimal digits after `0x`
or a number in decimal notation, which may have a sign of its own. -/
def readNumber? (cs : List Char) : Option Float :=
  let (negative, magnitude) :=
    match cs with
    | '-' :: rest => (true, rest)
    | _ => (false, cs)
  let value :=
    match magnitude with
    | '0' :: 'x' :: digits => (readHexadecimal? digits).map ofInt
    | '0' :: 'X' :: digits => (readHexadecimal? digits).map ofInt
    | _ => readDecimal? magnitude
  value.map fun x => if negative then -x else x

end DocQuery.Number
