/-
Values that differ only in where they stand.

* `Node.outline` — a value of a document without its places;
* `Correspondence.placeless` — the correspondence of values with one outline;
* `Correspondence.outline_eq` — which all corresponding values have;
* `Correspondence.Values.toJson_eq` — they are the same JSON wherever they are placed.

Design notes: an evaluation never looks at a place, so values with one outline are all the same to
it. Two documents of one content that have different names are compared in this way, and one value
in two documents.
-/
import DocQuery.Proofs.Formula.Positions
import DocQuery.Proofs.Source.Outline
import DocQuery.Proofs.Value.Placing

namespace DocQuery

namespace Node

mutual

/-- A value without its places. -/
def outline : Node → Outline
  | object _ members => .object (memberOutlines members)
  | array _ items => .array (itemOutlines items)
  | scalar _ s => .scalar s

/-- Members without their places. -/
def memberOutlines : List (String × Node) → List (String × Outline)
  | [] => []
  | (name, value) :: members => (name, value.outline) :: memberOutlines members

/-- Items without their places. -/
def itemOutlines : List Node → List Outline
  | [] => []
  | value :: items => value.outline :: itemOutlines items

end

theorem forall₂_of_memberOutlines {ms ms' : List (String × Node)}
    (h : memberOutlines ms' = memberOutlines ms) :
    List.Forall₂ (fun m m' => m.1 = m'.1 ∧ m'.2.outline = m.2.outline) ms ms' := by
  induction ms generalizing ms' with
  | nil =>
    cases ms' with
    | nil => exact .nil
    | cons => cases h
  | cons m ms ih =>
    cases ms' with
    | nil => cases h
    | cons m' ms' =>
      obtain ⟨hfirst, hrest⟩ := List.cons.inj h
      obtain ⟨hname, hvalue⟩ := Prod.mk.inj hfirst
      exact .cons ⟨hname.symm, hvalue⟩ (ih hrest)

theorem forall₂_of_itemOutlines {ns ns' : List Node} (h : itemOutlines ns' = itemOutlines ns) :
    List.Forall₂ (fun n n' => n'.outline = n.outline) ns ns' := by
  induction ns generalizing ns' with
  | nil =>
    cases ns' with
    | nil => exact .nil
    | cons => cases h
  | cons n ns ih =>
    cases ns' with
    | nil => cases h
    | cons n' ns' =>
      obtain ⟨hfirst, hrest⟩ := List.cons.inj h
      exact .cons hfirst (ih hrest)

/-- Values with one outline are of one form, and so are their parts. -/
theorem formAgrees_of_outline {n n' : Node} (h : n'.outline = n.outline) :
    n.FormAgrees (fun m m' => m'.outline = m.outline) n' := by
  cases n with
  | object p ms =>
    cases n' with
    | object p' ms' => exact .object p p' (forall₂_of_memberOutlines (Outline.object.inj h))
    | array => cases h
    | scalar => cases h
  | array p ns =>
    cases n' with
    | object => cases h
    | array p' ns' => exact .array p p' (forall₂_of_itemOutlines (Outline.array.inj h))
    | scalar => cases h
  | scalar p s =>
    cases n' with
    | object => cases h
    | array => cases h
    | scalar p' s' =>
      obtain rfl := Outline.scalar.inj h
      exact .scalar p p' s'

end Node

namespace Correspondence

/-- The correspondence of values that differ only in their places, with the given relation between
positions in expressions. -/
def placeless (position : Position → Position → Prop) : Correspondence where
  node n n' := n'.outline = n.outline
  path _ _ := True
  position := position
  form := Node.formAgrees_of_outline
  path_of_node _ := trivial
  computed _ _ := rfl

/-- Faults at one position are the same fault. -/
theorem Faults.eq {C : Correspondence} (hposition : ∀ p p', C.position p p' → p = p')
    {fault fault' : Fault} (h : C.Faults fault fault') : fault' = fault := by
  cases h with
  | malformed problem hp => rw [hposition _ _ hp]
  | failed problem hp => rw [hposition _ _ hp]
  | broken => rfl

mutual

/-- Corresponding values differ in their places only. -/
theorem outline_eq {C : Correspondence} : {n n' : Node} → C.node n n' → n'.outline = n.outline
  | .object p ms, n', h => by
    have hform := C.form h
    cases hform with
    | object _ _ hmembers => rw [Node.outline, Node.outline, memberOutlines_eq hmembers]
  | .array p ns, n', h => by
    have hform := C.form h
    cases hform with
    | array _ _ hitems => rw [Node.outline, Node.outline, itemOutlines_eq hitems]
  | .scalar p s, n', h => by
    have hform := C.form h
    cases hform with
    | scalar => rfl

theorem memberOutlines_eq {C : Correspondence} : {ms ms' : List (String × Node)} →
    List.Forall₂ (fun m m' => m.1 = m'.1 ∧ C.node m.2 m'.2) ms ms' →
      Node.memberOutlines ms' = Node.memberOutlines ms
  | [], _, h => by
    cases h
    rfl
  | (name, n) :: ms, _, h => by
    cases h with
    | cons hm hms =>
      rw [Node.memberOutlines, Node.memberOutlines, ← hm.1, outline_eq hm.2, memberOutlines_eq hms]

theorem itemOutlines_eq {C : Correspondence} : {ns ns' : List Node} → List.Forall₂ C.node ns ns' →
    Node.itemOutlines ns' = Node.itemOutlines ns
  | [], _, h => by
    cases h
    rfl
  | n :: ns, _, h => by
    cases h with
    | cons hn hns => rw [Node.itemOutlines, Node.itemOutlines, outline_eq hn, itemOutlines_eq hns]

end

/-- Corresponding values become the same JSON, or nothing at all. -/
theorem Values.toJson_eq {C : Correspondence} {v v' : Value} (h : C.Values v v') (p : Path) :
    (v'.toNode? p).map Node.toJson = (v.toNode? p).map Node.toJson := by
  cases h with
  | computed => rfl
  | @node n n' hn =>
    show some (if n'.path = _ then n' else _).toJson = some (if n.path = _ then n else _).toJson
    rw [Node.toJson_moved, Node.toJson_moved, Correspondence.toJson_eq hn]
  | @nodes ns ns' hns =>
    show some (Json.array (Node.itemsToJson (Node.copyItems _ 0 ns'))) =
      some (Json.array (Node.itemsToJson (Node.copyItems _ 0 ns)))
    rw [Node.itemsToJson_copyItems, Node.itemsToJson_copyItems, itemsToJson_eq hns]

theorem Values.asJson_eq {C : Correspondence} {v v' : Value} (h : C.Values v v') :
    v'.asJson = v.asJson := by
  have hjson := h.toJson_eq (.root queryId)
  rw [Value.asJson, Value.asJson, Answer.toJson, Answer.toJson]
  generalize v.toNode? (.root queryId) = found at hjson ⊢
  generalize v'.toNode? (.root queryId) = found' at hjson ⊢
  cases found with
  | none =>
    rw [Option.map_eq_none_iff.1 hjson]
  | some n =>
    obtain ⟨n', rfl, hn'⟩ := Option.map_eq_some_iff.1 hjson
    exact hn'

end Correspondence

end DocQuery
