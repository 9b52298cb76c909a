/-
The values of a document, each at its place.

* `Place` — where a value stands, and where it was copied from if it comes from another document;
* `Node` — an object, an array or a scalar at its place;
* `Node.copiedTo` — a value at another place;
* `Node.toJson`, `Node.ofJson` — the value without its places, and places for a value.

Design notes: members keep the order in which they were written, and a name occurs once. A value
that is copied between documents remembers only its first place, however often it is copied on.
-/
import DocQuery.Path
import DocQuery.Scalar

namespace DocQuery

/-- Where a value stands. -/
structure Place where
  path : Path
  /-- where the value was copied from, if that is in another document -/
  source : Option Path
deriving DecidableEq, Repr

/-- The place of a value that was not copied. -/
def Place.at (path : Path) : Place := ⟨path, none⟩

/-- The place `path` for a copy of the value at `p`. The copy refers to the first place of the
value, unless it has only ever been in the document of `path`. -/
def Place.copiedTo (p : Place) (path : Path) : Place :=
  ⟨path, p.source.or (if p.path.document = path.document then none else some p.path)⟩

/-- A value of a document. -/
inductive Node where
  | object (place : Place) (members : List (String × Node))
  | array (place : Place) (items : List Node)
  | scalar (place : Place) (scalar : Scalar)
deriving Repr

namespace Node

/-- The place of a value. -/
def place : Node → Place
  | object p _ | array p _ | scalar p _ => p

/-- The path of a value. -/
def path (n : Node) : Path := n.place.path

/-- Where a value was first. -/
def firstPath (n : Node) : Path := n.place.source.getD n.place.path

/-- The members of an object. -/
def members? : Node → Option (List (String × Node))
  | object _ members => some members
  | _ => none

/-- The items of an array. -/
def items? : Node → Option (List Node)
  | array _ items => some items
  | _ => none

/-- The scalar that a value is. -/
def scalar? : Node → Option Scalar
  | scalar _ s => some s
  | _ => none

/-- The member of an object by its name. -/
def member? (n : Node) (name : String) : Option Node :=
  n.members?.bind fun members => members.lookup name

/-- Whether a value is `null`. -/
def isNull (n : Node) : Bool :=
  n.scalar?.any Scalar.isNull

/-- The value `null`. -/
def null (path : Path) : Node := scalar (.at path) .null

mutual

/-- A copy of a value, with all that it contains, at another place. -/
def copiedTo (path : Path) : Node → Node
  | object p members => object (p.copiedTo path) (copyMembers path members)
  | array p items => array (p.copiedTo path) (copyItems path 0 items)
  | scalar p s => scalar (p.copiedTo path) s

/-- Copies of members, for an object at `path`. -/
def copyMembers (path : Path) : List (String × Node) → List (String × Node)
  | [] => []
  | (name, value) :: members =>
    (name, copiedTo (path.member name) value) :: copyMembers path members

/-- Copies of items, for an array at `path`, of which the first becomes the item `index`. -/
def copyItems (path : Path) (index : Nat) : List Node → List Node
  | [] => []
  | value :: items => copiedTo (path.item index) value :: copyItems path (index + 1) items

end

mutual

/-- A value without its places. -/
def toJson : Node → Json
  | object _ members => .ofMembers (membersToJson members)
  | array _ items => .array (itemsToJson items)
  | scalar _ s => s.toJson

/-- Members without their places. -/
def membersToJson : List (String × Node) → List (String × Json)
  | [] => []
  | (name, value) :: members => (name, toJson value) :: membersToJson members

/-- Items without their places. -/
def itemsToJson : List Node → List Json
  | [] => []
  | value :: items => toJson value :: itemsToJson items

end

mutual

/-- A JSON value placed at `path`. -/
def ofJson (path : Path) : Json → Node
  | .null => scalar (.at path) .null
  | .boolean b => scalar (.at path) (.ofBool b)
  | .number n => scalar (.at path) (.ofNumeral n)
  | .text s => scalar (.at path) (.quoted s)
  | .array items => array (.at path) (itemsOfJson path 0 items)
  | .object members => object (.at path) (membersOfJson path members)

/-- JSON values placed in an array at `path`, the first at `index`. -/
def itemsOfJson (path : Path) (index : Nat) : List Json → List Node
  | [] => []
  | value :: items => ofJson (path.item index) value :: itemsOfJson path (index + 1) items

/-- Members placed in an object at `path`. -/
def membersOfJson (path : Path) : List (String × Json) → List (String × Node)
  | [] => []
  | (name, value) :: members =>
    (name, ofJson (path.member name) value) :: membersOfJson path members

end

end Node

end DocQuery
