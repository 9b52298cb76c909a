/-
What is known of the value of a formula before it is evaluated.

* `Kind` — the type that a formula announces;
* `Kind.type?` — the scalar type of it, if it is one;
* `Value.kind` — what a constant announces.
-/
import DocQuery.Value.Basic

namespace DocQuery

/-- What a formula announces of its value. -/
inductive Kind where
  /-- nothing -/
  | any
  | boolean
  | number
  | text
  | moment
  /-- whatever a lookup finds -/
  | found
deriving DecidableEq, Repr

/-- The scalar type that is announced. -/
def Kind.type? : Kind → Option ScalarType
  | .boolean => some .boolean
  | .number => some .number
  | .text => some .text
  | .moment => some .moment
  | .any | .found => none

/-- What a value announces as a constant. -/
def Value.kind : Value → Kind
  | .boolean _ => .boolean
  | .number _ => .number
  | .text _ => .text
  | .moment _ => .moment
  | .undefined | .null | .node _ | .nodes _ => .any

end DocQuery
