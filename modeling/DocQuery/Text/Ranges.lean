/-
Sets of characters given by ranges of code points.

A property of characters is written down as an ascending table of closed ranges; a change of
case as a table of runs, each of which moves its characters by one common distance.

* `Ranges.contains` — whether a code point lies in one of the ranges;
* `ShiftedRun.image?` — where a run sends a code point, if the run covers it.

Design notes: characters beyond the first 128 are rare in what the library reads, so a table is
searched from its front; the tables stay plain data that a reader can check by eye.
-/
namespace DocQuery.Text

/-- Closed ranges of code points, ascending and apart. -/
abbrev Ranges := Array (Nat × Nat)

/-- A code point is in a table when one of its ranges holds it. -/
def Ranges.contains (ranges : Ranges) (code : Nat) : Bool :=
  ranges.any fun range => range.1 ≤ code && code ≤ range.2

/-- Every `stride`-th code point from `first` to `last`, each moved by `offset`. -/
structure ShiftedRun where
  first : Nat
  last : Nat
  stride : Nat
  offset : Int

/-- The code point to which a run moves `code`, or nothing when the run does not cover it. -/
def ShiftedRun.image? (run : ShiftedRun) (code : Nat) : Option Nat :=
  if run.first ≤ code && code ≤ run.last && (code - run.first) % run.stride = 0 then
    some (Int.toNat (code + run.offset))
  else
    none

end DocQuery.Text
