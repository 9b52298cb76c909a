/-
From JSON text to a draft, and from a draft to a finished value.

* `Draft.ofSource` — the draft of a text, its containers numbered after what they hold;
* `Draft.walk` — the cells of the document and the keys that lead to them;
* `Draft.order`, `Draft.path?` — the cells in document order, and the path of each;
* `Draft.freeze` — the value that a draft has become.

Design notes: no cell holds itself, so a walk down from the root is no longer than the number of
cells, which is the fuel of every walk. A member that occurs twice keeps its first place and has the
last value.
-/
import DocQuery.Draft.Cells

namespace DocQuery

namespace Draft

mutual

/-- Adds the cells of a value behind `cells`, and gives the number of its own cell. -/
def plant (cells : Array Cell) : Source → Array Cell × Nat
  | .object members position =>
    let (cells, planted) := plantMembers cells members
    (cells.push ⟨.object planted, position, none⟩, cells.size)
  | .array items position =>
    let (cells, planted) := plantItems cells items
    (cells.push ⟨.array planted, position, none⟩, cells.size)
  | .scalar s columns position => (cells.push ⟨.scalar s, position, columns⟩, cells.size)

/-- Adds the cells of members, one after the other. -/
def plantMembers (cells : Array Cell) : List (String × Source) → Array Cell × List (String × Nat)
  | [] => (cells, [])
  | (name, value) :: members =>
    let (cells, id) := plant cells value
    let (cells, planted) := plantMembers cells members
    (cells, (name, id) :: planted)

/-- Adds the cells of items, one after the other. -/
def plantItems (cells : Array Cell) : List Source → Array Cell × List Nat
  | [] => (cells, [])
  | value :: items =>
    let (cells, id) := plant cells value
    let (cells, planted) := plantItems cells items
    (cells, id :: planted)

end

/-- The draft of a text. -/
def ofSource (source : Source) : Draft :=
  let (cells, root) := plant #[] source
  ⟨cells, root⟩

end Draft

/-- The cells that the contents of a cell name, each with its key. -/
def Content.entries : Content → List (Key × Nat)
  | .object members => members.map fun m => (.member m.1, m.2)
  | .array items => items.zipIdx.map fun (id, index) => (.item index, id)
  | .scalar _ | .imported _ => []

namespace Draft

/-- The cells in and below the cell `id`, to which `keys` lead, containers before what they hold. -/
def walkFrom (d : Draft) : (fuel : Nat) → (keys : List Key) → (id : Nat) → List (Nat × List Key)
  | 0, _, _ => []
  | fuel + 1, keys, id =>
    let entries := ((d.content? id).map Content.entries).getD []
    (id, keys) :: entries.flatMap fun (key, child) => d.walkFrom fuel (keys ++ [key]) child

/-- The cells of the document, each with the keys that lead to it. -/
def walk (d : Draft) : List (Nat × List Key) :=
  d.walkFrom d.cells.size [] d.root

/-- The cells of the document in its order. -/
def order (d : Draft) : List Nat :=
  d.walk.map (·.1)

/-- The path of a cell in the document named `document`. -/
def path? (d : Draft) (document : String) (id : Nat) : Option Path :=
  (d.walk.lookup id).map fun keys => ⟨document, keys⟩

/-- Members with one more, which takes the place of a member of its name. -/
def putMember (name : String) (value : Node) : List (String × Node) → List (String × Node)
  | [] => [(name, value)]
  | m :: members =>
    if m.1 = name then (name, value) :: members else m :: putMember name value members

/-- The value of a cell at the path `path`. -/
def freezeFrom (d : Draft) : (fuel : Nat) → Path → (id : Nat) → Node
  | 0, path, _ => .null path
  | fuel + 1, path, id =>
    match d.content? id with
    | some (.object members) =>
      let frozen := members.map fun m => (m.1, d.freezeFrom fuel (path.member m.1) m.2)
      .object (.at path) (frozen.foldl (fun earlier m => putMember m.1 m.2 earlier) [])
    | some (.array items) =>
      .array (.at path) (items.zipIdx.map fun (child, index) =>
        d.freezeFrom fuel (path.item index) child)
    | some (.scalar s) => .scalar (.at path) s
    | some (.imported value) => if value.path = path then value else value.copiedTo path
    | none => .null path

/-- The value that a draft has become, as the document named `document`. -/
def freeze (d : Draft) (document : String) : Node :=
  d.freezeFrom d.cells.size (.root document) d.root

end Draft

end DocQuery
