/-
Documents under construction.

A draft holds the values of a document in numbered cells, so that a value can be replaced, removed
or joined by others where it stands while every other value keeps its number.

* `Content`, `Cell`, `Draft` — a value, the value with its place in the text, all of them;
* `Draft.add`, `Draft.setContent`, `Draft.remove`, `Draft.splice`, `Draft.spliceMember` — the
  changes;
* `Draft.slot?`, `Draft.isAttached` — where a cell sits;
* `Cell.textPosition` — where a character of a string was written.

Design notes: a cell that is taken out of its container keeps its number and its contents, it is
only named by no container any more. A change to a cell forgets how its text was spelled.
-/
import DocQuery.Fault
import DocQuery.Node
import DocQuery.Source.Tree

namespace DocQuery

/-- What a cell holds. Containers name other cells by their numbers. -/
inductive Content where
  | object (members : List (String × Nat))
  | array (items : List Nat)
  | scalar (scalar : Scalar)
  /-- a finished value -/
  | imported (value : Node)

/-- A value of a draft, where it begins in the text, and the columns of its characters where they do
not stand side by side. -/
structure Cell where
  content : Content
  position : Position
  columns : Option (List Nat)

/-- A document under construction. -/
structure Draft where
  cells : Array Cell
  root : Nat

/-- Where a cell sits: its container, and the name or the position that it has there. -/
inductive Slot where
  | member (object : Nat) (name : String)
  | item (array : Nat) (index : Nat)
deriving DecidableEq, Repr

/-- The container of a slot. -/
def Slot.owner : Slot → Nat
  | .member object _ => object
  | .item array _ => array

/-- Where a string was written, `offset` characters behind its opening quote. -/
def Cell.textPosition (c : Cell) (offset : Nat) : Position :=
  match c.columns with
  | none => c.position.shifted (1 + offset)
  | some columns =>
    ⟨c.position.line, (columns[offset]?.or columns.getLast?).getD c.position.column⟩

/-- The slot of the cell `id` in the contents of the cell `owner`. -/
def Content.slot? (owner id : Nat) : Content → Option Slot
  | .object members => (members.find? fun m => m.2 == id).map fun m => .member owner m.1
  | .array items => (items.idxOf? id).map fun index => .item owner index
  | .scalar _ | .imported _ => none

/-- The contents without what sits in a slot of them. -/
def Content.without : Slot → Content → Content
  | .member _ name, .object members => .object (members.filter fun m => m.1 != name)
  | .item _ index, .array items => .array (items.eraseIdx index)
  | _, content => content

namespace Draft

/-- The contents of a cell. -/
def content? (d : Draft) (id : Nat) : Option Content :=
  d.cells[id]?.map (·.content)

/-- The draft with one cell more, and its number. -/
def add (d : Draft) (content : Content) (position : Position) : Draft × Nat :=
  ({ d with cells := d.cells.push ⟨content, position, none⟩ }, d.cells.size)

/-- The draft with other contents in a cell. -/
def setContent (d : Draft) (id : Nat) (content : Content) : Draft :=
  { d with cells := d.cells.modify id fun cell => ⟨content, cell.position, none⟩ }

/-- The draft with the contents of a cell changed by `change`. -/
def changeContent (d : Draft) (id : Nat) (change : Content → Content) : Draft :=
  { d with cells := d.cells.modify id fun cell => { cell with content := change cell.content } }

/-- Where a cell sits. Of several containers that name it, that with the lowest number counts. -/
def slot? (d : Draft) (id : Nat) : Option Slot :=
  d.cells.toList.zipIdx.findSome? fun (cell, owner) => cell.content.slot? owner id

/-- Whether a cell is the root or named by a container. -/
def isAttached (d : Draft) (id : Nat) : Bool :=
  id == d.root || (d.slot? id).isSome

/-- Whether the cell `object` is an object with a member of this name. -/
def hasMember (d : Draft) (object : Nat) (name : String) : Bool :=
  match d.content? object with
  | some (.object members) => members.any fun m => m.1 == name
  | _ => false

/-- The draft without a cell in its container, if it has one. -/
def remove? (d : Draft) (id : Nat) : Option Draft :=
  (d.slot? id).map fun slot => d.changeContent slot.owner (Content.without slot)

/-- The draft with other items in the place of an item. -/
def splice (d : Draft) (id : Nat) (replacement : List Nat) : Except Fault Draft :=
  match d.slot? id with
  | some (.item array index) =>
    .ok (d.changeContent array fun
      | .array items => .array (items.take index ++ replacement ++ items.drop (index + 1))
      | content => content)
  | _ => .error (.broken .spliceOutsideArray)

/-- Members with others in the place of the first one of this name. -/
def spliceInto (name : String) (replacement : List (String × Nat)) :
    List (String × Nat) → List (String × Nat)
  | [] => []
  | m :: members =>
    if m.1 = name then replacement ++ members else m :: spliceInto name replacement members

/-- The draft with other members in the place of the member `name` of the object `object`. -/
def spliceMember (d : Draft) (object : Nat) (name : String) (replacement : List (String × Nat)) :
    Draft :=
  d.changeContent object fun
    | .object members => .object (spliceInto name replacement members)
    | content => content

end Draft

end DocQuery
