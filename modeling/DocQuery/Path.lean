/-
Paths: where a value lies inside a document.

A path names its document and the keys that lead from the root of the document to the value: names
of members and positions of items.

* `Path.member`, `Path.item`, `Path.parent?` — one key further in, one key back;
* `Path.compare` — how two paths lie to each other;
* `Path.segments`, `Path.render` — the written form `Orders[0].Lines[1,2]`, in which neighbouring
  positions share one pair of brackets.

Design notes: a path is its list of keys, so the shared brackets of the written form never decide
whether two paths are the same.
-/
namespace DocQuery

/-- One step from a container to what it holds. -/
inductive Key where
  | member (name : String)
  | item (index : Nat)
deriving DecidableEq, Repr

/-- The place of a value in the document `document`, by the keys from the root. -/
structure Path where
  document : String
  keys : List Key
deriving DecidableEq, Repr

/-- How one path lies to another. -/
inductive PathRelation where
  /-- in another document, or in another branch -/
  | unrelated
  /-- inside the other -/
  | child
  /-- around the other -/
  | parent
  /-- the same place -/
  | equal
  /-- beside the other in one container -/
  | sibling
deriving DecidableEq, Repr

/-- A piece of the written form of a path. -/
inductive Segment where
  | member (name : String)
  | items (indexes : List Nat)
deriving DecidableEq, Repr

namespace Path

/-- The root of a document. -/
def root (document : String) : Path := ⟨document, []⟩

/-- The path one key further in. -/
def child (p : Path) (key : Key) : Path := ⟨p.document, p.keys ++ [key]⟩

/-- The path of the member `name` of the object at `p`. -/
def member (p : Path) (name : String) : Path := p.child (.member name)

/-- The path of the item at `index` of the array at `p`. -/
def item (p : Path) (index : Nat) : Path := p.child (.item index)

/-- The path of the container, unless `p` is the root of its document. -/
def parent? (p : Path) : Option Path :=
  if p.keys.isEmpty then none else some ⟨p.document, p.keys.dropLast⟩

/-- The number of keys that two lists share at their front. -/
def commonLength : List Key → List Key → Nat
  | a :: as, b :: bs => if a = b then commonLength as bs + 1 else 0
  | _, _ => 0

/-- How `p` lies to `q`, by the keys that they share. -/
def compare (p q : Path) : PathRelation :=
  let common := commonLength p.keys q.keys
  if p.document ≠ q.document then .unrelated
  else if p.keys.length = q.keys.length then
    if common = p.keys.length then .equal
    else if common + 1 = p.keys.length then .sibling
    else .unrelated
  else if common = q.keys.length then .child
  else if common = p.keys.length then .parent
  else .unrelated

/-- The pieces of the written form of a list of keys: neighbouring positions become one piece. -/
def segmentsOf : List Key → List Segment
  | [] => []
  | .member name :: keys => .member name :: segmentsOf keys
  | .item index :: keys =>
    match segmentsOf keys with
    | .items indexes :: rest => .items (index :: indexes) :: rest
    | rest => .items [index] :: rest

/-- The pieces of the written form of a path. -/
def segments (p : Path) : List Segment := segmentsOf p.keys

/-- A piece of the written form; a name has a dot before it unless it comes first. -/
def renderSegment (isFirst : Bool) : Segment → String
  | .member name => if isFirst then name else "." ++ name
  | .items indexes => "[" ++ ",".intercalate (indexes.map toString) ++ "]"

/-- The written form of a path inside its document; the root is `$`. -/
def render (p : Path) : String :=
  match p.segments with
  | [] => "$"
  | first :: rest => renderSegment true first ++ String.join (rest.map (renderSegment false))

end Path

end DocQuery
