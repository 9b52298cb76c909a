/-
How a double is written down.

The digits come from `Binary.shortest`; a `Layout` says how they are laid out: which magnitudes are
written with a point in its place, whether a whole number keeps a fraction, which way ties go.

* `plainLayout` — never an exponent: `100`, `0.5`, `-0`, `inf`;
* `jsonLayout` — as numbers stand in JSON text: `1.0`, `0.00001`, `1e+16`, `1.5e-7`;
* `display` — as numbers are shown in texts: whole numbers of up to fifteen digits as integers.
-/
import DocQuery.Number.Shortest

namespace DocQuery.Number

/-- The decisions of one way to write doubles. -/
structure Layout where
  /-- the exponents of the leading digit for which the point stands in its place -/
  positional : Int → Bool
  /-- whether a whole number is written with a fraction of zero -/
  keepsFraction : Bool
  /-- which of two equally near decimals is written -/
  tie : Tie

/-- Numbers without an exponent, whole numbers without a point; of two equally near decimals the
upper one. -/
def plainLayout : Layout where
  positional := fun _ => true
  keepsFraction := false
  tie := .up

/-- Numbers of JSON text: an exponent from `10 ^ 16` on and below `10 ^ -5`, and always a mark of
a number with a fraction; of two equally near decimals the even one. -/
def jsonLayout : Layout where
  positional := fun exponent => decide (-5 ≤ exponent ∧ exponent ≤ 15)
  keepsFraction := true
  tie := .even

/-- The digits of a natural number. -/
def digitsOf (n : Nat) : List Char :=
  Nat.toDigits 10 n

/-- `digits * 10 ^ exponent` with the point in its place. -/
def positionalText (keepsFraction : Bool) (digits : List Char) (exponent : Int) : List Char :=
  let leading := digits.length + exponent
  if 0 ≤ exponent then
    digits ++ List.replicate exponent.toNat '0' ++ (if keepsFraction then ['.', '0'] else [])
  else if 0 < leading then
    digits.take leading.toNat ++ '.' :: digits.drop leading.toNat
  else
    '0' :: '.' :: List.replicate (-leading).toNat '0' ++ digits

/-- `digits * 10 ^ exponent` with one digit before the point and a signed exponent. -/
def scientificText (digits : List Char) (exponent : Int) : List Char :=
  let leading := digits.length + exponent - 1
  let mantissa :=
    match digits with
    | first :: second :: rest => first :: '.' :: second :: rest
    | short => short
  mantissa ++ 'e' :: (if leading < 0 then '-' else '+') :: digitsOf leading.natAbs

/-- A decimal in the given layout, without a sign. -/
def Layout.writeDecimal (layout : Layout) (d : Decimal) : List Char :=
  let digits := digitsOf d.digits
  if d.digits = 0 || layout.positional (digits.length + d.exponent - 1) then
    positionalText layout.keepsFraction digits d.exponent
  else
    scientificText digits d.exponent

/-- A double in the given layout. -/
def Layout.write (layout : Layout) (x : Float) : List Char :=
  match decode x with
  | .nan => ['N', 'a', 'N']
  | .infinite negative => (if negative then ['-'] else []) ++ ['i', 'n', 'f']
  | .finite b =>
    (if b.negative then ['-'] else []) ++ layout.writeDecimal (b.shortest layout.tie)

/-- A number without an exponent. -/
def plain (x : Float) : String :=
  String.ofList (plainLayout.write x)

/-- The text of an integer. -/
def integerText (i : Int) : String :=
  if i < 0 then "-" ++ String.ofList (digitsOf i.natAbs) else String.ofList (digitsOf i.natAbs)

/-- A computed number as text: a whole number below `10 ^ 15` is an integer and has no signed
zero, every other number is written without an exponent. -/
def display (x : Float) : String :=
  if isIntegral x && x.abs < 1e15 then integerText (integerPart x) else plain x

end DocQuery.Number
