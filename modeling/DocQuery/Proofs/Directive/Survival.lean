/-
What is left of a text after the work on it.

* `Node.IsStill` — a value of the same kind, and of the same text if it is a scalar;
* `Draft.EditedBy.order_sublist` — old cells that are left follow one another as they did;
* `Draft.EditedBy.isStill` — a cell that no directive is about is still there, and what it was.

Design notes: the cells that come from a text have the lowest numbers, so what remains of the order
of a document is the cells below the first number that is new.
-/
import DocQuery.Proofs.Directive.Invariant
import DocQuery.Proofs.Draft.Frozen

namespace DocQuery

/-! ### Order -/

namespace Edited

variable {α β : Type} {xs : List Directive} {first : Nat}

/-- Cells are edited as the entries that name them. -/
theorem map {idOf : α → Nat} {f : α → β} {idOf' : β → Nat} (hf : ∀ a, idOf' (f a) = idOf a)
    {as bs : List α} (h : Edited idOf xs first as bs) :
    Edited idOf' xs first (as.map f) (bs.map f) := by
  induction h with
  | nil => exact .nil
  | keep a _ ih => exact .keep (f a) ih
  | @swap x a as bs more hx ha hmore hgrows _ ih =>
    rw [List.map_append, List.map_cons]
    refine .swap hx (ha.trans (hf a).symm) ?_ (hgrows.imp_left fun hnil => ?_) ih
    · intro b hb
      obtain ⟨c, hc, rfl⟩ := List.mem_map.1 hb
      rw [hf]
      exact hmore c hc
    · rw [hnil]
      rfl

/-- What is left below entries follows as it did, if this holds of each of them. -/
theorem filter_flatMap_sublist {ids ids' : List Nat} (h : Edited id xs first ids ids')
    {below below' : Nat → List Nat}
    (hold : ∀ i ∈ ids, ((below' i).filter (· < first)).Sublist (below i))
    (hnew : ∀ i, first ≤ i → (below' i).filter (· < first) = []) :
    ((ids'.flatMap below').filter (· < first)).Sublist (ids.flatMap below) := by
  induction h with
  | nil => exact List.Sublist.refl _
  | keep i _ ih =>
    rw [List.flatMap_cons, List.flatMap_cons, List.filter_append]
    refine (hold i List.mem_cons_self).append (ih fun j hj => ?_)
    exact hold j (List.mem_cons_of_mem i hj)
  | @swap x i ids ids' more _ _ hmore _ _ ih =>
    -- the new entries are left out, and so is the one that has given way
    have hgone : (more.flatMap below').filter (· < first) = [] := by
      rw [List.filter_flatMap, List.flatMap_eq_nil_iff]
      intro j hj
      exact hnew j (hmore j hj)
    rw [List.flatMap_append, List.filter_append, hgone, List.nil_append, List.flatMap_cons]
    refine (ih fun j hj => ?_).trans (List.sublist_append_right _ _)
    exact hold j (List.mem_cons_of_mem i hj)

end Edited

/-- The cells that edited contents name are edited like them. -/
theorem Content.Edited.targets {xs : List Directive} {first : Nat} {c c' : Content}
    (h : Content.Edited xs first c c') :
    DocQuery.Edited id xs first (c.entries.map (·.2)) (c'.entries.map (·.2)) := by
  cases h with
  | object h =>
    rw [Content.object_targets, Content.object_targets]
    exact h.map (f := Prod.snd) fun _ => rfl
  | array h =>
    rw [Content.array_targets, Content.array_targets]
    exact h
  | scalar s => exact .nil
  | imported v => exact .nil

namespace Draft

variable {d d' : Draft} {n id fuel fuel' : Nat} {keys : List Key} {xs : List Directive}

/-- The cells in and below a cell, in the order of the document. -/
def orderFrom (d : Draft) (fuel id : Nat) : List Nat :=
  (d.walkFrom fuel [] id).map (·.1)

theorem map_walkFrom (d : Draft) (fuel : Nat) (keys : List Key) (id : Nat) :
    (d.walkFrom fuel keys id).map (·.1) = d.orderFrom fuel id := by
  induction fuel generalizing keys id with
  | zero => rfl
  | succ fuel ih =>
    rw [orderFrom, walkFrom_succ, walkFrom_succ, List.map_cons, List.map_cons, List.map_flatMap,
      List.map_flatMap]
    simp only [ih]

theorem orderFrom_succ (d : Draft) (fuel id : Nat) :
    d.orderFrom (fuel + 1) id = id :: ((d.entries id).map (·.2)).flatMap (d.orderFrom fuel) := by
  rw [orderFrom, walkFrom_succ, List.map_cons, List.map_flatMap, List.flatMap_map]
  simp only [map_walkFrom]

/-- In and below a cell that has been added there is no old one. -/
theorem IsTree.orderFrom_added (h : d.IsTree n) (hid : n ≤ id) :
    (d.orderFrom fuel id).filter (· < n) = [] := by
  have hleaf : d.entries id = [] := by
    rw [List.eq_nil_iff_forall_not_mem]
    intro e he
    have howner := h.owner_lt he
    omega
  rcases fuel with _ | fuel
  · rfl
  · rw [orderFrom_succ, hleaf, List.map_nil, List.flatMap_nil]
    simp [hid]

namespace EditedBy

/-- What is left of the old cells in and below a cell follows as it did. -/
theorem orderFrom_sublist (h : d.EditedBy xs d') (htree : d.IsTree d.cells.size)
    (htree' : d'.IsTree d.cells.size) (hbare : ∀ x ∈ xs, d.entries x.cell = []) {cell : Nat}
    (hcell : cell < d.cells.size) (hf : Enough d.cells.size d fuel cell) :
    ((d'.orderFrom fuel' cell).filter (· < d.cells.size)).Sublist (d.orderFrom fuel cell) := by
  induction fuel generalizing fuel' cell with
  | zero => exact absurd hf.1 (by omega)
  | succ fuel ih =>
    rcases fuel' with _ | fuel'
    · exact List.nil_sublist _
    · have hentries : Edited id xs d.cells.size ((d.entries cell).map (·.2))
          ((d'.entries cell).map (·.2)) := by
        by_cases hnil : d.entries cell = []
        · rw [hnil, h.bare hnil]
          exact .nil
        · obtain ⟨c, hc⟩ : ∃ c, d.content? cell = some c := by
            rw [content?, Array.getElem?_eq_getElem hcell]
            exact ⟨_, rfl⟩
          obtain ⟨c', hc', hedit⟩ := h.content hc fun x hx heq => hnil (heq ▸ hbare x hx)
          rw [entries_of_content? hc, entries_of_content? hc']
          exact hedit.targets
      rw [orderFrom_succ, orderFrom_succ, List.filter_cons_of_pos (by simpa using hcell)]
      refine List.Sublist.cons_cons cell (hentries.filter_flatMap_sublist ?_ ?_)
      · intro child hchild
        obtain ⟨e, he, rfl⟩ := List.mem_map.1 hchild
        exact ih (htree.target_lt he) (htree.enough_child hf he)
      · exact fun child hchild => htree'.orderFrom_added hchild

/-- Old cells that are left follow one another as they did. -/
theorem order_sublist (h : d.EditedBy xs d') (htree : d.IsTree d.cells.size)
    (htree' : d'.IsTree d.cells.size) (hbare : ∀ x ∈ xs, d.entries x.cell = []) :
    (d'.order.filter (· < d.cells.size)).Sublist d.order := by
  rw [order, walk, map_walkFrom, order, walk, map_walkFrom, h.root_eq]
  exact h.orderFrom_sublist htree htree' hbare htree.root_lt htree.enough_root

end EditedBy

end Draft

/-! ### Kind and text -/

/-- Whether a value is of the kind of another one, and is the same scalar if it is one. -/
structure Node.IsStill (n n' : Node) : Prop where
  sort_eq : n'.sort = n.sort
  scalar?_eq : n'.scalar? = n.scalar?

/-- A value is what it was wherever it finds its place. -/
theorem Node.isStill_moved (v : Node) (p p' : Path) :
    (if v.path = p then v else v.copiedTo p).IsStill
      (if v.path = p' then v else v.copiedTo p') := by
  have hmoved : ∀ q, (if v.path = q then v else v.copiedTo q).sort = v.sort ∧
      (if v.path = q then v else v.copiedTo q).scalar? = v.scalar? := by
    intro q
    split
    · exact ⟨rfl, rfl⟩
    · cases v <;> exact ⟨rfl, rfl⟩
  exact ⟨(hmoved p').1.trans (hmoved p).1.symm, (hmoved p').2.trans (hmoved p).2.symm⟩

namespace Draft

variable {d d' : Draft} {n id fuel fuel' : Nat} {path path' : Path} {keys : List Key}
  {xs : List Directive}

theorem isStill_freezeFrom (h : d.IsTree n) (h' : d'.IsTree n) {first : Nat} {c c' : Content}
    (hc : d.content? id = some c) (hc' : d'.content? id = some c')
    (hedit : Content.Edited xs first c c') :
    (d.freezeFrom (fuel + 1) path id).IsStill (d'.freezeFrom (fuel' + 1) path' id) := by
  cases hedit with
  | object _ =>
    rw [h.freezeFrom_object hc, h'.freezeFrom_object hc']
    exact ⟨rfl, rfl⟩
  | array _ =>
    rw [freezeFrom_array hc, freezeFrom_array hc']
    exact ⟨rfl, rfl⟩
  | scalar s =>
    rw [freezeFrom_scalar hc, freezeFrom_scalar hc']
    exact ⟨rfl, rfl⟩
  | imported v =>
    rw [freezeFrom_imported hc, freezeFrom_imported hc']
    exact v.isStill_moved path path'

/-- A cell that no directive is about is still there, and what it was. -/
theorem EditedBy.isStill (h : d.EditedBy xs d') (htree : d.IsTree n) (htree' : d'.IsTree n)
    (hbare : ∀ x ∈ xs, d.entries x.cell = []) (hleads : d.Leads d.root keys id)
    (hne : ∀ x ∈ xs, x.cell ≠ id) (document : String) :
    ∃ keys' m m', AlikeKeys keys keys' ∧ d'.Leads d'.root keys' id ∧
      (d.freeze document).at? keys = some m ∧ (d'.freeze document).at? keys' = some m' ∧
        m.IsStill m' := by
  obtain ⟨keys', halike, hleads'⟩ := h.exists_leads hbare hleads hne
  rw [← h.root_eq] at hleads'
  obtain ⟨fuel, -, hat⟩ := htree.at?_freeze hleads document
  obtain ⟨fuel', -, hat'⟩ := htree'.at?_freeze hleads' document
  obtain ⟨c, hc⟩ := htree.exists_content hleads
  obtain ⟨c', hc', hedit⟩ := h.content hc hne
  exact ⟨keys', _, _, halike, hleads', hat, hat', isStill_freezeFrom htree htree' hc hc' hedit⟩

end Draft

end DocQuery
