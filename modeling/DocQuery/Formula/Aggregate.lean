/-
Aggregates: one value for a whole collection.

* `Aggregate` — the aggregates;
* `Tally` — what an aggregate keeps while it goes through a collection;
* `Aggregate.collect` — going through the items, with a value for each of them.

Design notes: an aggregate stops as soon as nothing can change any more, so later items are not even
looked at. The sum of nothing is zero; the average and the extremes of nothing are undefined.
-/
import DocQuery.Formula.Function
import DocQuery.Formula.Traced

namespace DocQuery

/-- A function of a whole collection. -/
inductive Aggregate where
  | count
  | any
  | all
  | sum
  | average
  | min
  | max
deriving DecidableEq, Repr

/-- What an aggregate knows of the items that it has gone through. -/
inductive Tally where
  | count (n : Nat)
  | any (isFound : Bool)
  | all (holds : Bool)
  | sum (total : Float)
  | average (total : Float) (n : Nat)
  | extreme (best : Option Float) (isGreatest : Bool)

namespace Aggregate

/-- The name of an aggregate. -/
def name : Aggregate → String
  | count => "Count"
  | any => "Any"
  | all => "All"
  | sum => "Sum"
  | average => "Average"
  | min => "Min"
  | max => "Max"

/-- The arguments of an aggregate: a collection, and a lambda that only some can do without. -/
def arity : Aggregate → Arity
  | all => ⟨2, some 2⟩
  | _ => ⟨1, some 2⟩

/-- The type of the results of an aggregate, as far as they always have one. -/
def kind : Aggregate → Kind
  | count | sum => .number
  | any | all => .boolean
  | average | min | max => .any

/-- Nothing gone through yet. -/
def start : Aggregate → Tally
  | count => .count 0
  | any => .any false
  | all => .all true
  | sum => .sum 0
  | average => .average 0 0
  | min => .extreme none false
  | max => .extreme none true

end Aggregate

namespace Tally

/-- Whether `x` takes the place of the best number so far. -/
def isBetter (best : Option Float) (isGreatest : Bool) (x : Float) : Bool :=
  match best with
  | none => true
  | some b => if isGreatest then x > b else x < b

/-- One item more, and whether to go on after it. -/
def add (a : Operand) : Tally → Except Fault (Tally × Bool)
  | count n => a.boolean.map fun b => (count (if b then n + 1 else n), true)
  | any isFound => a.boolean.map fun b => if b then (any true, false) else (any isFound, true)
  | all holds => a.boolean.map fun b => if b then (all holds, true) else (all false, false)
  | sum total => a.number.map fun x => (sum (total + x), true)
  | average total n => a.number.map fun x => (average (total + x) (n + 1), true)
  | extreme best isGreatest =>
    a.number.map fun x =>
      (extreme (if isBetter best isGreatest x then some x else best) isGreatest, true)

/-- The value of the aggregate. -/
def result : Tally → Value
  | count n => .number (Number.ofInt n)
  | any b | all b => .boolean b
  | sum total => .number total
  | average _ 0 => .undefined
  | average total n => .number (total / Number.ofInt n)
  | extreme none _ => .undefined
  | extreme (some x) _ => .number x

/-- Goes through the items that are left, with the value of each from `valueOf`. -/
def collect (valueOf : Node × Nat → Traced Operand) : Tally → List (Node × Nat) → Traced Tally
  | tally, [] => pure tally
  | tally, item :: items => do
    let a ← valueOf item
    let (tally, goesOn) ← Traced.ofExcept (tally.add a)
    if goesOn then collect valueOf tally items else pure tally

end Tally

namespace Aggregate

/-- The value of an aggregate that gets a value for each item from a lambda. -/
def runWith (a : Aggregate) (valueOf : Node × Nat → Traced Operand) (items : List Node) :
    Traced Value := do
  let tally ← a.start.collect valueOf items.zipIdx
  pure tally.result

/-- The value of an aggregate of a collection that stands at `position`. -/
def run (a : Aggregate) (position : Position) (items : List Node) : Traced Value :=
  match a with
  | count => pure (.number (Number.ofInt items.length))
  | any => pure (.boolean !items.isEmpty)
  | _ => a.runWith (fun item => pure ⟨.node item.1, position⟩) items

end Aggregate

end DocQuery
