/-
Values as JSON, wherever they are placed.

* `Node.toJson_copiedTo` — a copy is the same JSON as what was copied;
* `Value.asJson` — the JSON that a query with a value for its result answers;
* `Value.toJson_placedIn`, `Value.toJson_toNode?` — a value that is placed in a document is that
  JSON.
-/
import DocQuery.Compilation

namespace DocQuery

namespace Node

mutual

/-- A copy is the same JSON as what was copied. -/
theorem toJson_copiedTo (path : Path) : (n : Node) → (n.copiedTo path).toJson = n.toJson
  | object p members => by
    rw [copiedTo, toJson, toJson, membersToJson_copyMembers path members]
  | array p items => by
    rw [copiedTo, toJson, toJson, itemsToJson_copyItems path 0 items]
  | scalar p s => rfl

theorem membersToJson_copyMembers (path : Path) : (members : List (String × Node)) →
    membersToJson (copyMembers path members) = membersToJson members
  | [] => rfl
  | (name, value) :: members => by
    rw [copyMembers, membersToJson, membersToJson, toJson_copiedTo (path.member name) value,
      membersToJson_copyMembers path members]

theorem itemsToJson_copyItems (path : Path) (index : Nat) : (items : List Node) →
    itemsToJson (copyItems path index items) = itemsToJson items
  | [] => rfl
  | value :: items => by
    rw [copyItems, itemsToJson, itemsToJson, toJson_copiedTo (path.item index) value,
      itemsToJson_copyItems path (index + 1) items]

end

/-- A value is the same JSON where it finds its place. -/
theorem toJson_moved (n : Node) (path : Path) :
    (if n.path = path then n else n.copiedTo path).toJson = n.toJson := by
  split
  · rfl
  · exact n.toJson_copiedTo path

end Node

namespace Value

/-- The JSON that a query with this value for its result answers. -/
def asJson (v : Value) : Json := (Answer.mk (v.toNode? (.root queryId)) []).toJson

/-- A value is the same JSON wherever it is placed. -/
theorem toJson_toNode? {v : Value} {n : Node} {p : Path} (h : v.toNode? p = some n) :
    n.toJson = v.asJson := by
  cases v with
  | undefined => simp [toNode?] at h
  | null =>
    obtain rfl := Option.some.inj h
    rfl
  | boolean b =>
    obtain rfl := Option.some.inj h
    rfl
  | number x =>
    obtain rfl := Option.some.inj h
    rfl
  | text s =>
    obtain rfl := Option.some.inj h
    rfl
  | moment m =>
    obtain rfl := Option.some.inj h
    rfl
  | node m =>
    obtain rfl := Option.some.inj h
    rw [m.toJson_moved p]
    exact (m.toJson_moved (.root queryId)).symm
  | nodes ns =>
    obtain rfl := Option.some.inj h
    show Json.array (Node.itemsToJson (Node.copyItems p 0 ns)) =
      Json.array (Node.itemsToJson (Node.copyItems (.root queryId) 0 ns))
    rw [Node.itemsToJson_copyItems, Node.itemsToJson_copyItems]

/-- A value that is put into a document is what a query would answer. -/
theorem toJson_placedIn {v : Value} {n : Node} {document : String}
    (h : v.placedIn document = some n) : n.toJson = v.asJson := by
  cases v with
  | node m =>
    obtain rfl := Option.some.inj h
    exact (m.toJson_moved (.root queryId)).symm
  | _ => exact toJson_toNode? (p := .root document) h

/-- Nothing but `undefined` is no answer. -/
theorem toNode?_eq_none_iff {v : Value} {p : Path} : v.toNode? p = none ↔ v = .undefined := by
  cases v <;> simp [toNode?]

/-- Nothing but `undefined` is put nowhere. -/
theorem placedIn_eq_none_iff {v : Value} {document : String} :
    v.placedIn document = none ↔ v = .undefined := by
  cases v <;> simp [placedIn, toNode?]

end Value

end DocQuery
