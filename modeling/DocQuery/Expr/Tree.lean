/-
Syntax trees of expressions.

* `Expr` — a tree, with the place of every node;
* `Expr.depth` — its number of levels;
* `Expr.tooDeep?` — where a tree has more levels than are allowed.

Design notes: an operation stands at its operator, everything else at its first token. Parentheses
stay in the tree, because what they enclose never joins the chain of names around them.
-/
import DocQuery.Expr.Language
import DocQuery.Text.Position

namespace DocQuery

/-- A parameter of a lambda. -/
structure Parameter where
  name : String
  position : Position
deriving DecidableEq, Repr

/-- The syntax tree of an expression. -/
inductive Expr where
  | name (spelling : String) (position : Position)
  | number (digits : String) (position : Position)
  | text (content : String) (position : Position)
  /-- an operator between two operands -/
  | binary (operator : Operator) (left right : Expr) (position : Position)
  /-- an operator before its operand -/
  | before (operator : Operator) (operand : Expr) (position : Position)
  /-- an operator after its operand -/
  | after (operator : Operator) (operand : Expr) (position : Position)
  /-- an expression in parentheses -/
  | group (inner : Expr) (position : Position)
  /-- a name with arguments in parentheses -/
  | call (function : String) (arguments : List Expr) (position : Position)
  /-- a name with indexes in brackets -/
  | index (name : String) (indexes : List Expr) (position : Position)
  | lambda (parameters : List Parameter) (body : Expr) (position : Position)
deriving Repr

namespace Expr

/-- Where a tree stands. -/
def position : Expr → Position
  | name _ p | number _ p | text _ p | binary _ _ _ p | before _ _ p | after _ _ p
  | group _ p | call _ _ p | index _ _ p | lambda _ _ p => p

mutual

/-- The number of levels of a tree. -/
def depth : Expr → Nat
  | name _ _ | number _ _ | text _ _ => 1
  | binary _ left right _ => max left.depth right.depth + 1
  | before _ operand _ | after _ operand _ => operand.depth + 1
  | group inner _ => inner.depth + 1
  | call _ arguments _ => depthOfAll arguments + 1
  | index _ indexes _ => depthOfAll indexes + 1
  | lambda _ body _ => body.depth + 1

/-- The number of levels of the deepest of several trees. -/
def depthOfAll : List Expr → Nat
  | [] => 0
  | e :: es => max e.depth (depthOfAll es)

end

mutual

/-- Where a tree goes below `levels` levels. The last branch is looked at first. -/
def tooDeep? : (levels : Nat) → Expr → Option Position
  | 0, e => some e.position
  | _ + 1, name _ _ | _ + 1, number _ _ | _ + 1, text _ _ => none
  | levels + 1, binary _ left right _ => (right.tooDeep? levels).or (left.tooDeep? levels)
  | levels + 1, before _ operand _ | levels + 1, after _ operand _ => operand.tooDeep? levels
  | levels + 1, group inner _ => inner.tooDeep? levels
  | levels + 1, call _ arguments _ => anyTooDeep? levels arguments
  | levels + 1, index _ indexes _ => anyTooDeep? levels indexes
  | levels + 1, lambda _ body _ => body.tooDeep? levels

/-- Where the last of several trees that goes below `levels` levels does so. -/
def anyTooDeep? (levels : Nat) : List Expr → Option Position
  | [] => none
  | e :: es => (anyTooDeep? levels es).or (e.tooDeep? levels)

end

end Expr

end DocQuery
