/-
JSON texts as they were written.

* `Source` — the tree of a JSON text, with the place of every value;
* `Source.position` — where a value begins;
* `Source.positions` — where all values begin, in the order of the text.

Design notes: of a string between quotes the columns of its characters are kept, but only where
escapes make them differ from a plain count.
-/
import DocQuery.Scalar
import DocQuery.Text.Position

namespace DocQuery

/-- The tree of a JSON text. -/
inductive Source where
  | object (members : List (String × Source)) (position : Position)
  | array (items : List Source) (position : Position)
  /-- a scalar, with the columns of its characters where it has escapes -/
  | scalar (scalar : Scalar) (columns : Option (List Nat)) (position : Position)
deriving Repr

namespace Source

/-- Where a value begins. -/
def position : Source → Position
  | object _ p | array _ p | scalar _ _ p => p

mutual

/-- Where a value and those inside it begin, in the order of the text. -/
def positions : Source → List Position
  | object members p => p :: memberPositions members
  | array items p => p :: itemPositions items
  | scalar _ _ p => [p]

/-- Where the values of members begin. -/
def memberPositions : List (String × Source) → List Position
  | [] => []
  | (_, value) :: members => positions value ++ memberPositions members

/-- Where items begin. -/
def itemPositions : List Source → List Position
  | [] => []
  | value :: items => positions value ++ itemPositions items

end

end Source

end DocQuery
