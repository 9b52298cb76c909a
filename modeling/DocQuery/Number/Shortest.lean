/-
The fewest decimal digits that read back as the same double.

The reals that round to a double form an interval: from halfway to the neighbour below to halfway
to the neighbour above, with its ends exactly when the mantissa is even. `shortest` looks for a
decimal in that interval with as few digits as possible and takes the nearest of those.

* `Binary.readsBack` — whether a decimal lies in the interval of a double;
* `shortest` — the decimal that is written for a double.

Design notes: on each grid of decimals only the two neighbours of the double need a test, so the
search tries the grids of one digit, two digits, and so on, in exact arithmetic. Where both
neighbours are equally near, the caller says which is taken.
-/
import DocQuery.Number.Binary

namespace DocQuery.Number

/-- The decimal `digits * 10 ^ exponent`. -/
structure Decimal where
  digits : Nat
  exponent : Int
deriving DecidableEq, Repr

/-- Which of two equally near decimals is taken. -/
inductive Tie where
  | up
  | even
deriving DecidableEq, Repr

/-- The exact comparison of `a * 10 ^ i` with `n * 2 ^ j`. -/
def compareScaled (a : Nat) (i : Int) (n : Nat) (j : Int) : Ordering :=
  compare (a * Nat.pow 10 i.toNat * Nat.pow 2 (-j).toNat)
    (n * Nat.pow 2 j.toNat * Nat.pow 10 (-i).toNat)

/-- Whether the decimal `d` is among the reals that round to the magnitude of `b`. Below a power
of two the neighbours are twice as close as above it. -/
def Binary.readsBack (b : Binary) (d : Decimal) : Bool :=
  let narrow := b.mantissa = Nat.pow 2 52 ∧ -1074 < b.exponent
  let low := if narrow then 4 * b.mantissa - 1 else 4 * b.mantissa - 2
  let high := 4 * b.mantissa + 2
  let closed := b.mantissa % 2 = 0
  let fromLow := compareScaled d.digits d.exponent low (b.exponent - 2)
  let fromHigh := compareScaled d.digits d.exponent high (b.exponent - 2)
  (fromLow = .gt || (closed && fromLow = .eq)) && (fromHigh = .lt || (closed && fromHigh = .eq))

/-- The least `k` for which the magnitude of `b` is below `10 ^ k`. The binary logarithm gives it
up to a step or two. -/
def Binary.scale (b : Binary) : Int :=
  let guess := (b.mantissa.log2 + b.exponent) * 30103 / 100000 - 1
  let candidates := [guess, guess + 1, guess + 2, guess + 3]
  (candidates.find? fun k => compareScaled 1 k b.mantissa b.exponent = .gt).getD (guess + 4)

/-- The decimal with the last place `10 ^ place` that is written for `b`, if one of the two
neighbours of `b` on that grid reads back. -/
def Binary.onGrid? (b : Binary) (tie : Tie) (place : Int) : Option Decimal :=
  let numerator := b.mantissa * Nat.pow 2 b.exponent.toNat * Nat.pow 10 (-place).toNat
  let denominator := Nat.pow 2 (-b.exponent).toNat * Nat.pow 10 place.toNat
  let below := numerator / denominator
  let lower : Decimal := ⟨below, place⟩
  let upper : Decimal := ⟨below + 1, place⟩
  match b.readsBack lower, b.readsBack upper with
  | true, true =>
    match compare (2 * numerator) ((2 * below + 1) * denominator), tie with
    | .lt, _ => some lower
    | .gt, _ => some upper
    | .eq, .up => some upper
    | .eq, .even => some (if below % 2 = 0 then lower else upper)
  | true, false => some lower
  | false, true => some upper
  | false, false => none

/-- The exact decimal value of the magnitude of `b`. -/
def Binary.exact (b : Binary) : Decimal :=
  if 0 ≤ b.exponent then ⟨b.mantissa * Nat.pow 2 b.exponent.toNat, 0⟩
  else ⟨b.mantissa * Nat.pow 5 (-b.exponent).toNat, b.exponent⟩

/-- A decimal with at most `n` zeros moved from the end of its digits to its exponent. -/
def Decimal.strip : Nat → Decimal → Decimal
  | 0, d => d
  | n + 1, d =>
    if d.digits ≠ 0 ∧ d.digits % 10 = 0 then Decimal.strip n ⟨d.digits / 10, d.exponent + 1⟩ else d

/-- The shortest decimal that reads back as the magnitude of `b`, and of those the nearest. -/
def Binary.shortest (b : Binary) (tie : Tie) : Decimal :=
  if b.mantissa = 0 then
    ⟨0, 0⟩
  else
    let scale := b.scale
    let found := (List.range 17).findSome? fun n => b.onGrid? tie (scale - (n + 1 : Nat))
    Decimal.strip 800 (found.getD b.exact)

end DocQuery.Number
