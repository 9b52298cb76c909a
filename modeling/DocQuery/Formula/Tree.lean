/-
Formulas: expressions whose names have been resolved.

* `Formula` — what is computed, with the place of every part in the text;
* `Step` — one step of a lookup, to members, items or a selection;
* `Start` — where a lookup begins;
* `Formula.position`, `Formula.kind` — where a formula stands and what it announces.

Design notes: a lambda is known by the number of lambdas around it, which no other lambda that is
active at the same time shares. A parameter names its lambda in this way, so evaluation never looks
at the names of parameters.
-/
import DocQuery.Formula.Aggregate
import DocQuery.Formula.View

namespace DocQuery

/-- The documents in which the first name of a lookup is searched. -/
inductive Scope where
  /-- the current document, then those that it inherits from -/
  | all
  /-- the current document only -/
  | own
  /-- only the documents that the current one inherits from -/
  | inherited
deriving DecidableEq, Repr

/-- What a parameter of a lambda stands for. -/
inductive ParameterRole where
  | item
  | index
deriving DecidableEq, Repr

/-- Where a lookup begins. -/
inductive Start where
  | property (name : String) (scope : Scope)
  /-- the root of the current document -/
  | this
  /-- the root of the closest document that the current one inherits from -/
  | parent
  | parameter (lambda : Nat) (name : String) (role : ParameterRole)
deriving DecidableEq, Repr

/-- The selectors that go through the items with a lambda. -/
inductive LambdaSelector where
  | filter
  | project
  | first
  | last
deriving DecidableEq, Repr

/-- The name of a selector. -/
def LambdaSelector.name : LambdaSelector → String
  | .filter => "Where"
  | .project => "Select"
  | .first => "First"
  | .last => "Last"

mutual

/-- An expression whose names have been resolved. -/
inductive Formula where
  | constant (value : Value) (position : Position)
  | apply (function : UnaryFunction) (operand : Formula) (position : Position)
  /-- the operand, unless it is missing or an empty collection -/
  | assert (operand : Formula) (position : Position)
  | binary (operation : BinaryOperation) (left right : Formula) (position : Position)
  /-- both are true; the second one counts only if the first one is true -/
  | both (left right : Formula) (position : Position)
  /-- one of them is true; the second one counts only if the first one is false -/
  | either (left right : Formula) (position : Position)
  /-- the value, or the alternative if the value is missing or of another type -/
  | fallback (value alternative : Formula) (position : Position)
  | test (test : TextTest) (whole part : Formula) (position : Position)
  | concatenate (parts : List Formula) (position : Position)
  | choose (condition yes no : Formula) (position : Position)
  /-- the present moment -/
  | now (position : Position)
  | aggregate (aggregate : Aggregate) (collection : Formula) (position : Position)
  /-- an aggregate of what a lambda makes of the items -/
  | aggregateBy (aggregate : Aggregate) (collection : Formula) (lambda : Nat) (body : Formula)
    (position : Position)
  | lookup (start : Start) (steps : List Step) (position : Position)
  /-- a lookup that begins with a computed value -/
  | follow (base : Formula) (steps : List Step) (position : Position)
  | operation (operation : Operation) (arguments : List Formula) (position : Position)

/-- One step of a lookup. -/
inductive Step where
  | member (name : String)
  /-- positions, one inside the other -/
  | index (indexes : List Formula)
  /-- positions, the first of them in a collection -/
  | at (indexes : List Formula) (position : Position)
  | arrange (arrangement : Arrangement) (position : Position)
  | through (selector : LambdaSelector) (lambda : Nat) (body : Formula) (position : Position)

end

namespace Formula

/-- Where a formula stands. -/
def position : Formula → Position
  | constant _ p | apply _ _ p | assert _ p | binary _ _ _ p | both _ _ p | either _ _ p
  | fallback _ _ p | test _ _ _ p | concatenate _ p | choose _ _ _ p | now p | aggregate _ _ p
  | aggregateBy _ _ _ _ p | lookup _ _ p | follow _ _ p | operation _ _ p => p

/-- What a formula announces of its value. -/
def kind : Formula → Kind
  | constant v _ => v.kind
  | apply f _ _ => f.kind
  | assert operand _ => operand.kind
  | binary o _ _ _ => o.kind
  | both _ _ _ | either _ _ _ | test _ _ _ _ => .boolean
  | fallback value alternative _ =>
    if alternative.kind.type?.isSome then alternative.kind else value.kind
  | concatenate _ _ => .text
  | choose _ _ _ _ => .any
  | now _ => .moment
  | aggregate a _ _ | aggregateBy a _ _ _ _ => a.kind
  | lookup _ _ _ | follow _ _ _ => .found
  | operation o _ _ => o.kind

end Formula

end DocQuery
