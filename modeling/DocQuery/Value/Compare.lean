/-
Comparisons of values.

* `Atom.order?` — the order of two atoms, where there is one;
* `Value.same` — equality, which never fails;
* `Value.order` — the order of two values, or the fault of comparing what has none.

Design notes: a text is compared with a number or a moment as what it reads as. Missing values equal
each other and nothing else. Two values of which neither is an atom are equal when they have the
same form.
-/
import DocQuery.Value.Convert

namespace DocQuery

/-- The order of two numbers. There is none where one of them is not a number. -/
def Number.order? (x y : Float) : Option Ordering :=
  if x < y then some .lt
  else if x == y then some .eq
  else if x > y then some .gt
  else none

/-- The order of two texts by their characters. -/
def orderOfTexts (a b : String) : Ordering :=
  if a < b then .lt else if a = b then .eq else .gt

/-- The order of two truth values: false comes first. -/
def orderOfBooleans : Bool → Bool → Ordering
  | false, true => .lt
  | true, false => .gt
  | _, _ => .eq

/-- The order of two atoms. -/
def Atom.order? (options : Options) : Atom → Atom → Option Ordering
  | .number x, .number y => Number.order? x y
  | .text a, .text b => some (orderOfTexts a b)
  | .boolean a, .boolean b => some (orderOfBooleans a b)
  | .moment a, .moment b => some (a.order b)
  | .number x, .text b => (numberInText? b).bind fun y => Number.order? x y
  | .text a, .number y => (numberInText? a).bind fun x => Number.order? x y
  | .moment a, .text b => (momentInText? options b).map fun m => a.order m
  | .text a, .moment b => (momentInText? options a).map fun m => m.order b
  | _, _ => none

/-- Equality of optional JSON values. -/
def sameStructure : Option Json → Option Json → Bool
  | some a, some b => a.same b
  | none, none => true
  | _, _ => false

namespace Value

/-- Equality of values. -/
def same (options : Options) (a b : Value) : Bool :=
  if a.isMissing || b.isMissing then a.isMissing && b.isMissing
  else
    match a.atom?, b.atom? with
    | some x, some y => x.order? options y = some .eq
    | none, none => sameStructure a.structure? b.structure?
    | _, _ => false

/-- The order of two values that are compared at `position`. -/
def order (options : Options) (position : Position) (a b : Value) : Except Fault Ordering :=
  match a.atom?, b.atom? with
  | none, _ => .error (.failed (.incomparable a.sort) position)
  | some _, none => .error (.failed (.incomparable b.sort) position)
  | some x, some y =>
    match x.order? options y with
    | some o => .ok o
    | none => .error (.failed (.incomparablePair a.sort b.sort) position)

end Value

end DocQuery
