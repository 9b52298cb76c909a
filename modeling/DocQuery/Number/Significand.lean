/-
Doubles from as many digits as fit 64 bits.

A decimal of any length becomes an integer of 64 bits and a power of ten that it is multiplied or
divided by.

* `Significand` — the digits that are kept of a decimal, and where its point stands;
* `Significand.ofDigits` — what is kept of the digits before and after the point;
* `Significand.toFloat` — the double that it gives.

Design notes: the integer, the power of ten and their product or quotient are each rounded to a
double, so the result need not be the double nearest to the decimal. It is the nearest one as long
as the digits make an integer below `2 ^ 53` and the power of ten is at most `10 ^ 22`, for then
only the last step rounds.
-/
import DocQuery.Number.Reading

namespace DocQuery.Number

/-- The number `digits * 10 ^ exponent`, whose digits fit 64 bits. -/
structure Significand where
  digits : Nat
  exponent : Int
deriving DecidableEq, Repr

namespace Significand

/-- Digits with one digit more, if that still fits 64 bits. -/
def append? (digits : Nat) (c : Char) : Option Nat :=
  let extended := 10 * digits + (c.toNat - '0'.toNat)
  if extended < Nat.pow 2 64 then some extended else none

/-- What is kept of the digits before the point. From the first digit that does not fit, they only
count as places. -/
def ofWhole (digits : Nat) : List Char → Significand
  | [] => ⟨digits, 0⟩
  | c :: rest =>
    match append? digits c with
    | some extended => ofWhole extended rest
    | none => ⟨digits, rest.length + 1⟩

/-- What is kept of the digits after the point. From the first digit that does not fit, they are
left out. -/
def withFraction (s : Significand) : List Char → Significand
  | [] => s
  | c :: rest =>
    match append? s.digits c with
    | some extended => withFraction ⟨extended, s.exponent - 1⟩ rest
    | none => s

/-- What is kept of the decimal with these digits before and after the point, times a power of
ten. -/
def ofDigits (whole fraction : List Char) (exponent : Int) : Significand :=
  let s := (ofWhole 0 whole).withFraction fraction
  ⟨s.digits, s.exponent + exponent⟩

/-- The greatest power of ten that is a finite double. -/
def greatestPower : Nat := 308

/-- A double divided by a power of ten. Two divisions bring every integer of 64 bits down to zero.
-/
def dividedByPower (x : Float) (places : Nat) : Float :=
  if places ≤ greatestPower then
    x / scaled 1 places
  else if places ≤ 2 * greatestPower then
    x / scaled 1 greatestPower / scaled 1 (places - greatestPower : Nat)
  else
    0.0

/-- The double that a number gives, which is infinite where the number is too great. -/
def toFloat (s : Significand) : Float :=
  let x := scaled s.digits 0
  if s.digits = 0 then 0.0
  else if s.exponent < 0 then dividedByPower x s.exponent.natAbs
  else if s.exponent ≤ greatestPower then x * scaled 1 s.exponent
  else infinity

end Significand

end DocQuery.Number
