/-
Values that find another place.

* `Node.copiedTo_copiedTo` — a copy of a copy is a copy of the value, inside one document;
* `Node.IsAddressed.copiedTo_self` — a well addressed value is its own copy in its place;
* `Draft.HoldsAddressed` — a draft whose finished values are well addressed;
* `Draft.IsTree.copiedTo_freezeFrom` — the value of a cell at another place is a copy of it;
* `Draft.HoldsFrom.map_items`, `Draft.HoldsFrom.map_members` — values that are added become copies.

Design notes: a value that already has the path of its place is taken as it is, and any other is
copied. That both are the same copy is where the addresses inside a value have to be right.
-/
import DocQuery.Proofs.Directive.Addresses
import DocQuery.Proofs.Draft.Frame

namespace DocQuery

/-! ### Copies of copies -/

theorem Place.copiedTo_at {p q : Path} (h : p.document = q.document) :
    (Place.at p).copiedTo q = .at q := by
  rw [Place.copiedTo, Place.at, if_pos h]
  rfl

theorem Place.copiedTo_self (p : Place) : p.copiedTo p.path = p := by
  rw [copiedTo, if_pos rfl, Option.or_none]

/-- A copy in the same document has come from where the value has come from. -/
theorem Place.copiedTo_copiedTo (p : Place) {q r : Path} (h : q.document = r.document) :
    (p.copiedTo q).copiedTo r = p.copiedTo r := by
  rw [copiedTo, copiedTo, copiedTo]
  simp only
  rw [if_pos h, Option.or_none, h]

namespace Node

theorem copyMembers_eq (path : Path) (ms : List (String × Node)) :
    copyMembers path ms = ms.map fun m => (m.1, m.2.copiedTo (path.member m.1)) := by
  induction ms with
  | nil => rfl
  | cons m ms ih => rw [copyMembers, ih, List.map_cons]

theorem copyItems_eq (path : Path) (index : Nat) (ns : List Node) :
    copyItems path index ns = (ns.zipIdx index).map fun i => i.1.copiedTo (path.item i.2) := by
  induction ns generalizing index with
  | nil => rfl
  | cons n ns ih => rw [copyItems, ih, List.zipIdx_cons, List.map_cons]

theorem copyItems_append (path : Path) (index : Nat) (as bs : List Node) :
    copyItems path index (as ++ bs) =
      copyItems path index as ++ copyItems path (index + as.length) bs := by
  rw [copyItems_eq, copyItems_eq, copyItems_eq, List.zipIdx_append, List.map_append]

mutual

/-- A copy of a copy is a copy of the value, if both are in one document. -/
theorem copiedTo_copiedTo {q r : Path} (h : q.document = r.document) :
    (n : Node) → (n.copiedTo q).copiedTo r = n.copiedTo r
  | .object p ms => by
    rw [copiedTo, copiedTo, copiedTo, p.copiedTo_copiedTo h, copyMembers_copyMembers h ms]
  | .array p ns => by
    rw [copiedTo, copiedTo, copiedTo, p.copiedTo_copiedTo h, copyItems_copyItems h 0 0 ns]
  | .scalar p s => by
    rw [copiedTo, copiedTo, copiedTo, p.copiedTo_copiedTo h]

theorem copyMembers_copyMembers {q r : Path} (h : q.document = r.document) :
    (ms : List (String × Node)) → copyMembers r (copyMembers q ms) = copyMembers r ms
  | [] => rfl
  | (name, value) :: ms => by
    have hvalue := copiedTo_copiedTo (q := q.member name) (r := r.member name) h value
    rw [copyMembers, copyMembers, copyMembers, hvalue, copyMembers_copyMembers h ms]

theorem copyItems_copyItems {q r : Path} (h : q.document = r.document) (i j : Nat) :
    (ns : List Node) → copyItems r j (copyItems q i ns) = copyItems r j ns
  | [] => rfl
  | value :: ns => by
    have hvalue := copiedTo_copiedTo (q := q.item i) (r := r.item j) h value
    rw [copyItems, copyItems, copyItems, hvalue, copyItems_copyItems h (i + 1) (j + 1) ns]

end

/-- A well addressed value is its own copy in its place. -/
theorem IsAddressed.copiedTo_self {n : Node} (h : n.IsAddressed) : n.copiedTo n.path = n := by
  induction h with
  | @object p ms _ hpaths _ ih =>
    show Node.object (p.copiedTo p.path) (copyMembers p.path ms) = _
    have hmembers : copyMembers p.path ms = ms := by
      rw [copyMembers_eq]
      refine (List.map_congr_left fun m hm => ?_).trans (List.map_id ms)
      rw [← hpaths m hm, ih m hm]
      rfl
    rw [p.copiedTo_self, hmembers]
  | @array p ns hpaths _ ih =>
    show Node.array (p.copiedTo p.path) (copyItems p.path 0 ns) = _
    have hitems : copyItems p.path 0 ns = ns := by
      have hall : ∀ i ∈ ns.zipIdx, i.1.copiedTo (p.path.item i.2) = i.1 := by
        intro i hi
        rw [List.mem_zipIdx_iff_getElem?] at hi
        rw [← hpaths i.2 i.1 hi]
        exact ih i.1 (List.mem_of_getElem? hi)
      rw [copyItems_eq, List.map_congr_left hall]
      exact List.zipIdx_map_fst 0 ns
    rw [p.copiedTo_self, hitems]
  | scalar p s =>
    show Node.scalar (p.copiedTo p.path) s = _
    rw [p.copiedTo_self]

end Node

theorem Node.copiedTo_null {p q : Path} (h : p.document = q.document) :
    (Node.null p).copiedTo q = .null q := by
  rw [null, copiedTo, Place.copiedTo_at h]
  rfl

/-! ### Values of cells at other places -/

namespace Draft

/-- Whether the finished values of a draft are well addressed. -/
def HoldsAddressed (d : Draft) : Prop :=
  ∀ id v, d.content? id = some (.imported v) → v.IsAddressed

/-- What corresponds to itself as well addressed holds well addressed values. -/
theorem Corresponds.holdsAddressed {d : Draft} (h : d.Corresponds .addressed d) :
    d.HoldsAddressed := by
  intro id v hc
  have hcontent := h.content? id
  rw [hc] at hcontent
  cases hcontent with
  | some hcontent =>
    cases hcontent with
    | imported hv => exact hv.2

variable {d : Draft} {n id fuel : Nat} {path p q : Path}

theorem HoldsAddressed.freezeFrom (h : d.HoldsAddressed) {v : Node}
    (hc : d.content? id = some (.imported v)) :
    d.freezeFrom (fuel + 1) path id = v.copiedTo path := by
  rw [freezeFrom_imported hc]
  by_cases hthere : v.path = path
  · rw [if_pos hthere, ← hthere, (h id v hc).copiedTo_self]
  · rw [if_neg hthere]

/-- Items that are copied one by one may be counted from anywhere. -/
theorem copyItems_zipIdx (value : Path → Nat → Node)
    (hcopied : ∀ {p q : Path} {id : Nat}, p.document = q.document →
      (value p id).copiedTo q = value q id)
    (hdocument : p.document = q.document) (ids : List Nat) (i j : Nat) :
    Node.copyItems q j ((ids.zipIdx i).map fun x => value (p.item x.2) x.1) =
      (ids.zipIdx j).map fun x => value (q.item x.2) x.1 := by
  induction ids generalizing i j with
  | nil => rfl
  | cons id ids ih =>
    have hfirst : (value (p.item i) id).copiedTo (q.item j) = value (q.item j) id :=
      hcopied hdocument
    rw [List.zipIdx_cons, List.zipIdx_cons, List.map_cons, List.map_cons, Node.copyItems, hfirst,
      ih]

/-- The value of a cell at another place of the document is a copy of the value at this one. -/
theorem IsTree.copiedTo_freezeFrom (htree : d.IsTree n) (h : d.HoldsAddressed)
    (hdocument : p.document = q.document) :
    (d.freezeFrom fuel p id).copiedTo q = d.freezeFrom fuel q id := by
  induction fuel generalizing p q id with
  | zero => exact Node.copiedTo_null hdocument
  | succ fuel ih =>
    rcases hc : d.content? id with _ | c
    · rw [freezeFrom_none hc, freezeFrom_none hc]
      exact Node.copiedTo_null hdocument
    · cases c with
      | object members =>
        rw [htree.freezeFrom_object hc, htree.freezeFrom_object hc, Node.copiedTo,
          Place.copiedTo_at hdocument, Node.copyMembers_eq, List.map_map]
        congr 1
        refine List.map_congr_left fun m _ => ?_
        have hmember : (d.freezeFrom fuel (p.member m.1) m.2).copiedTo (q.member m.1) =
            d.freezeFrom fuel (q.member m.1) m.2 := ih hdocument
        exact congrArg (Prod.mk m.1) hmember
      | array items =>
        rw [freezeFrom_array hc, freezeFrom_array hc, Node.copiedTo, Place.copiedTo_at hdocument,
          copyItems_zipIdx (d.freezeFrom fuel) ih hdocument]
      | scalar s =>
        rw [freezeFrom_scalar hc, freezeFrom_scalar hc, Node.copiedTo, Place.copiedTo_at hdocument]
      | imported v =>
        rw [h.freezeFrom hc, h.freezeFrom hc, v.copiedTo_copiedTo hdocument]

/-! ### Values that are added -/

section Added

variable {d' : Draft} {first : Nat} {ns : List Node}

/-- Whether the cells of a draft from the number `first` on hold the values `ns`. -/
def HoldsFrom (d : Draft) (first : Nat) (ns : List Node) : Prop :=
  ∀ i n, ns[i]? = some n → d.content? (first + i) = some (.imported n)

theorem HoldsFrom.tail {n : Node} (h : d.HoldsFrom first (n :: ns)) :
    d.HoldsFrom (first + 1) ns := by
  intro i m hm
  have hnext := h (i + 1) m hm
  rwa [Nat.add_comm i 1, ← Nat.add_assoc] at hnext

theorem holdsFrom_addAll (d : Draft) (position : Position) (ns : List Node) :
    (d.addAll position ns).1.HoldsFrom d.cells.size ns := by
  intro i n hn
  rw [addAll_eq, content?]
  simp only
  rw [Array.getElem?_append_right (Nat.le_add_right _ _), Nat.add_sub_cancel_left,
    List.getElem?_toArray, List.getElem?_map, hn]
  rfl

/-- The values of added items are copies of what has been added. -/
theorem HoldsFrom.map_items (h : d.HoldsFrom first ns) (haddressed : d.HoldsAddressed)
    (fuel : Nat) (path : Path) (index : Nat) :
    (((List.range' first ns.length).zipIdx index).map fun x =>
      d.freezeFrom (fuel + 1) (path.item x.2) x.1) = Node.copyItems path index ns := by
  induction ns generalizing first index with
  | nil => rfl
  | cons n ns ih =>
    have hfirst : d.content? first = some (.imported n) := h 0 n rfl
    rw [List.length_cons, List.range'_succ, List.zipIdx_cons, List.map_cons, Node.copyItems,
      haddressed.freezeFrom hfirst, ih h.tail]

/-- The values of added members are copies of what has been added. -/
theorem HoldsFrom.map_members {ms : List (String × Node)} (h : d.HoldsFrom first (ms.map (·.2)))
    (haddressed : d.HoldsAddressed) (fuel : Nat) (path : Path) :
    (((ms.map (·.1)).zip (List.range' first (ms.map (·.2)).length)).map fun m =>
      (m.1, d.freezeFrom (fuel + 1) (path.member m.1) m.2)) = Node.copyMembers path ms := by
  induction ms generalizing first with
  | nil => rfl
  | cons m ms ih =>
    have hfirst : d.content? first = some (.imported m.2) := h 0 m.2 rfl
    rw [List.map_cons, List.map_cons, List.length_cons, List.range'_succ, List.zip_cons_cons,
      List.map_cons, Node.copyMembers, haddressed.freezeFrom hfirst, ih h.tail]

end Added

end Draft

end DocQuery
