/-
Doubles as exact numbers.

A finite double is a sign, a mantissa and a power of two. What the library needs to know of a
double beyond its arithmetic is read off these three.

* `decode`, `Binary.toFloat` — between a double and its three parts;
* `truncate`, `isIntegral`, `integerPart` — the whole part of a double;
* `remainder` — what is left of a division, exact, with the sign of the dividend.

Design notes: everything here is arithmetic of naturals on the bit pattern, so it can be reasoned
about without rounding; sums, products and comparisons stay those of `Float`.
-/
namespace DocQuery.Number

/-- The finite double `± mantissa * 2 ^ exponent`. -/
structure Binary where
  negative : Bool
  mantissa : Nat
  exponent : Int
deriving DecidableEq, Repr

/-- What the bit pattern of a double stands for. -/
inductive Decoded where
  | nan
  | infinite (negative : Bool)
  | finite (parts : Binary)
deriving DecidableEq, Repr

/-- The parts of a double: one sign bit, eleven bits of exponent, 52 bits of mantissa. -/
def decode (x : Float) : Decoded :=
  let bits := x.toBits.toNat
  let negative := decide (Nat.pow 2 63 ≤ bits)
  let biased : Nat := bits / Nat.pow 2 52 % Nat.pow 2 11
  let fraction : Nat := bits % Nat.pow 2 52
  if biased = 2047 then
    if fraction = 0 then .infinite negative else .nan
  else if biased = 0 then
    .finite ⟨negative, fraction, -1074⟩
  else
    .finite ⟨negative, Nat.pow 2 52 + fraction, (biased : Int) - 1075⟩

/-- The double with the given parts. It is exact when the number has at most 53 significant
bits; further bits are cut off. -/
def Binary.toFloat (b : Binary) : Float :=
  let sign := if b.negative then Nat.pow 2 63 else 0
  if b.mantissa = 0 then
    Float.ofBits (UInt64.ofNat sign)
  else
    let leading : Int := b.mantissa.log2 + b.exponent
    let last : Int := max (leading - 52) (-1074)
    let places :=
      b.mantissa * Nat.pow 2 (b.exponent - last).toNat / Nat.pow 2 (last - b.exponent).toNat
    if leading < -1022 then
      Float.ofBits (UInt64.ofNat (sign + places))
    else
      let hidden := Nat.pow 2 52
      Float.ofBits (UInt64.ofNat (sign + (last + 1075).toNat * hidden + (places - hidden)))

/-- Not a number. -/
def notANumber : Float := 0.0 / 0.0

/-- Positive infinity. -/
def infinity : Float := 1.0 / 0.0

/-- Whether a double is neither an infinity nor the result of an undefined operation. -/
def isFinite (x : Float) : Bool :=
  match decode x with
  | .finite _ => true
  | _ => false

/-- The whole part of the magnitude of a finite double. -/
def Binary.wholePart (b : Binary) : Nat :=
  b.mantissa * Nat.pow 2 b.exponent.toNat / Nat.pow 2 (-b.exponent).toNat

/-- Whether a finite double has no fraction. -/
def Binary.isWhole (b : Binary) : Bool :=
  b.mantissa % Nat.pow 2 (-b.exponent).toNat = 0

/-- A double without its fraction. The sign stays, also that of a zero. -/
def truncate (x : Float) : Float :=
  match decode x with
  | .finite b => if 0 ≤ b.exponent then x else Binary.toFloat ⟨b.negative, b.wholePart, 0⟩
  | _ => x

/-- Whether a double is a whole number. Infinities are none. -/
def isIntegral (x : Float) : Bool :=
  match decode x with
  | .finite b => b.isWhole
  | _ => false

/-- The whole part of a double as an integer of 64 bits. What lies outside their range becomes
the nearest end of it, and what is no number becomes zero. -/
def integerPart (x : Float) : Int :=
  let least : Int := -Nat.pow 2 63
  let greatest : Int := Nat.pow 2 63 - 1
  match decode x with
  | .nan => 0
  | .infinite negative => if negative then least else greatest
  | .finite b =>
    let whole : Int := if b.negative then -b.wholePart else b.wholePart
    max least (min greatest whole)

/-- The remainder of a division that rounds its quotient toward zero. It is exact and has the
sign of the dividend. -/
def remainder (x y : Float) : Float :=
  match decode x, decode y with
  | .finite a, .finite b =>
    if b.mantissa = 0 then
      notANumber
    else
      let last := min a.exponent b.exponent
      let dividend := a.mantissa * Nat.pow 2 (a.exponent - last).toNat
      let divisor := b.mantissa * Nat.pow 2 (b.exponent - last).toNat
      Binary.toFloat ⟨a.negative, dividend % divisor, last⟩
  | .finite _, .infinite _ => x
  | _, _ => notANumber

/-- The double nearest to an integer. -/
def ofInt (i : Int) : Float :=
  if i < 0 then -Float.ofNat i.natAbs else Float.ofNat i.natAbs

end DocQuery.Number
