/-
What a lookup has reached.

* `View` — one value of a document, if there is one, or a collection;
* `View.member`, `View.item` — a step to members of a name, and to an item by its position;
* `View.searched`, `View.counted` — what such a step comes across without noticing it;
* `Arrangement` — the selectors that choose and order items without looking at their values one by
  one.

Design notes: looking up a name in an array or a collection searches the items, and arrays among
them through their own items. Items without the name leave no trace in the result.
-/
import DocQuery.Formula.Traced
import DocQuery.Value.Basic

namespace DocQuery

/-- What a lookup has reached. -/
inductive View where
  | single (value : Option Node)
  | many (items : List Node)

mutual

/-- The members `name` of a value: of the objects in it that only arrays surround. -/
def Node.search (name : String) : Node → List Node
  | .array _ items => Node.searchAll name items
  | .object p members => ((Node.object p members).member? name).toList
  | .scalar _ _ => []

/-- The members `name` of several values, one after the other. -/
def Node.searchAll (name : String) : List Node → List Node
  | [] => []
  | n :: ns => n.search name ++ Node.searchAll name ns

end

mutual

/-- The items that a search for a name in a value comes across, those of arrays among them. -/
def Node.surrounded : Node → List Node
  | .array _ items => Node.surroundedAll items
  | .object _ _ | .scalar _ _ => []

/-- Several values, each followed by the items in it that only arrays surround. -/
def Node.surroundedAll : List Node → List Node
  | [] => []
  | n :: ns => n :: (n.surrounded ++ Node.surroundedAll ns)

end

/-- What a value contributes to a collection: the items of an array, or the value itself. -/
def Node.spread (n : Node) : List Node :=
  n.items?.getD [n]

namespace View

/-- The values that were reached. -/
def nodes : View → List Node
  | single value => value.toList
  | many items => items

/-- What was reached, as a value. -/
def toValue : View → Value
  | single (some n) => .node n
  | single none => .undefined
  | many items => .nodes items

/-- A value as what a lookup goes on from. A computed scalar is placed at `path`. -/
def ofValue (path : Path) : Value → View
  | .node n => single (some n)
  | .nodes ns => many ns
  | .undefined | .null => single none
  | v => single (v.toNode? path)

/-- A step to the members of a name. -/
def member (name : String) : View → View
  | single none => single none
  | single (some (.array _ items)) => many (Node.searchAll name items)
  | single (some n) => single (n.member? name)
  | many items => many (Node.searchAll name items)

/-- A step to the item at a position. -/
def item (index : Nat) : View → View
  | single none => single none
  | single (some n) => single (n.items?.bind fun items => items[index]?)
  | many items => single items[index]?

/-- The items that were reached, those of an array or of a collection. -/
def items : View → List Node
  | single value => (value.bind Node.items?).getD []
  | many items => items

/-- What a step to the members of a name comes across besides the values that were reached. -/
def searched (view : View) : List Node :=
  view.nodes.flatMap Node.surrounded

/-- What a step to the item at a position comes across: the array and its items up to this one. -/
def counted (index : Option Nat) (view : View) : List Node :=
  view.nodes ++ (index.map fun i => view.items.take (i + 1)).getD []

end View

/-- The sightings of values. -/
def sightingsOf (ns : List Node) (isWhole : Bool) : List Sighting :=
  ns.map fun n => ⟨n.path, isWhole, true⟩

/-- The sightings of values that are not noticed. A lookup that is not tracked sees none. -/
def unnoticed (isTracked : Bool) (ns : List Node) (isWhole : Bool) : List Sighting :=
  if isTracked then ns.map fun n => ⟨n.path, isWhole, false⟩ else []

/-- The sightings of a value that was looked up. A computed value is nowhere to be seen. -/
def Value.sightings : Value → List Sighting
  | .node n => sightingsOf [n] true
  | .nodes ns => sightingsOf ns true
  | _ => []

/-- A selector that needs no more than the items. -/
inductive Arrangement where
  | first
  | last
  | flatten
  | reverse
  | distinct
  /-- a selector that a vocabulary adds -/
  | custom (name : String) (select : List Node → View)

namespace Arrangement

/-- The name of a selector. -/
def name : Arrangement → String
  | first => "First"
  | last => "Last"
  | flatten => "Flatten"
  | reverse => "Reverse"
  | distinct => "Distinct"
  | custom name _ => name

/-- What a selector comes across in items. -/
def surveyed (isTracked : Bool) (items : List Node) : Arrangement → List Sighting
  | first => unnoticed isTracked (items.take 1) false
  | last | flatten | reverse => unnoticed isTracked items false
  | distinct | custom _ _ => unnoticed isTracked items true

/-- The items whose text is not in `seen` and differs from that of every item before them. -/
def distinctAfter (seen : List String) : List Node → List Node
  | [] => []
  | n :: ns =>
    let text := n.toJson.compact
    if seen.contains text then distinctAfter seen ns
    else n :: distinctAfter (text :: seen) ns

/-- What a selector makes of items. -/
def select (items : List Node) : Arrangement → View
  | first => .single items.head?
  | last => .single items.getLast?
  | flatten => .many (items.flatMap Node.spread)
  | reverse => .many items.reverse
  | distinct => .many (distinctAfter [] items)
  | custom _ select => select items

end Arrangement

end DocQuery
