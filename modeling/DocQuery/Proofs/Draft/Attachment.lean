/-
Attached cells, and cells that can be reached.

* `Draft.held`, `Draft.Encloses` — the cells that a container holds, and those that lie in a cell at
  any depth;
* `Draft.withoutAll` — a draft from which cells have been taken out, one after the other;
* `Draft.IsTree.held_withoutAll_iff` — every container has lost those that were taken out, and no
  others;
* `Draft.mem_order_ofSource` — all cells of a text are in its document;
* `Draft.attachment_after_removals` — what is attached after any removals, and what is in the
  document.

Design notes: a cell that is taken out keeps its contents. What lies in it stays attached to it,
although no keys lead there from the root any more, so a cell can be attached without being a part
of the document. Numbers of items shift with every removal, so containers are compared by the cells
that they hold and not by their keys.
-/
import Mathlib.Data.List.Perm.Subperm
import Mathlib.Logic.Relation
import DocQuery.Proofs.Draft.Sites

namespace DocQuery

namespace Draft

/-- The cells that a cell names. -/
def held (d : Draft) (owner : Nat) : List Nat :=
  (d.entries owner).map (·.2)

/-- Whether the cell `id` lies in the cell `a`, at any depth, or is that cell. -/
def Encloses (d : Draft) : Nat → Nat → Prop :=
  Relation.ReflTransGen fun owner id => id ∈ d.held owner

/-- The draft without some cells in their containers, taken out one after the other. -/
def withoutAll (d : Draft) (ids : List Nat) : Draft :=
  ids.foldl without d

variable {d d' : Draft} {n id owner a : Nat} {ids : List Nat}

theorem mem_held_iff : id ∈ d.held owner ↔ ∃ key, (key, id) ∈ d.entries owner := by
  simp [held]

/-! ### What encloses a cell -/

theorem encloses_iff_leads : d.Encloses a id ↔ ∃ keys, d.Leads a keys id := by
  constructor
  · intro h
    induction h with
    | refl => exact ⟨[], .here a⟩
    | tail _ hmem ih =>
      obtain ⟨keys, hkeys⟩ := ih
      obtain ⟨key, hentry⟩ := mem_held_iff.1 hmem
      exact ⟨keys ++ [key], hkeys.snoc hentry⟩
  · rintro ⟨keys, h⟩
    induction h with
    | here id => exact .refl
    | down hentry _ ih => exact .head (mem_held_iff.2 ⟨_, hentry⟩) ih

/-- What encloses a cell is that cell, or it encloses a container that holds it. -/
theorem encloses_iff_eq_or :
    d.Encloses a id ↔ a = id ∨ ∃ owner, d.Encloses a owner ∧ id ∈ d.held owner := by
  rw [Encloses, Relation.ReflTransGen.cases_tail_iff]
  exact or_congr_left eq_comm

/-- A cell is attached if it is the root or some container holds it. -/
theorem isAttached_iff : d.isAttached id ↔ id = d.root ∨ ∃ owner, id ∈ d.held owner := by
  rw [isAttached, Bool.or_eq_true, beq_iff_eq, Option.isSome_iff_exists]
  refine or_congr_right ⟨?_, ?_⟩
  · rintro ⟨s, hs⟩
    exact ⟨s.owner, mem_held_iff.2 ⟨s.key, mem_entries_of_slot? hs⟩⟩
  · rintro ⟨owner, hmem⟩
    obtain ⟨key, hentry⟩ := mem_held_iff.1 hmem
    exact exists_slot?_of_mem hentry

namespace IsTree

theorem root_not_mem_held (h : d.IsTree n) (owner : Nat) : d.root ∉ d.held owner := by
  intro hmem
  obtain ⟨key, hentry⟩ := mem_held_iff.1 hmem
  exact h.ne_root hentry rfl

/-- One container at most holds a cell. -/
theorem owner_unique (h : d.IsTree n) {other : Nat} (hmem : id ∈ d.held owner)
    (hmem' : id ∈ d.held other) : owner = other := by
  obtain ⟨key, hentry⟩ := mem_held_iff.1 hmem
  obtain ⟨key', hentry'⟩ := mem_held_iff.1 hmem'
  exact (h.unique hentry hentry' rfl).1

/-- Nothing but the root encloses the root. -/
theorem eq_root_of_encloses (h : d.IsTree n) (henclosed : d.Encloses a d.root) : a = d.root := by
  rcases encloses_iff_eq_or.1 henclosed with heq | ⟨owner, -, hmem⟩
  · exact heq
  · exact absurd hmem (h.root_not_mem_held owner)

/-- What encloses a cell is that cell, or it encloses the container of it. -/
theorem encloses_held_iff (h : d.IsTree n) (hmem : id ∈ d.held owner) :
    d.Encloses a id ↔ a = id ∨ d.Encloses a owner := by
  rw [encloses_iff_eq_or]
  refine or_congr_right ⟨?_, fun howner => ⟨owner, howner, hmem⟩⟩
  rintro ⟨other, hother, hmem'⟩
  rwa [h.owner_unique hmem hmem']

/-- The document consists of the cells that the root encloses. -/
theorem mem_order_iff_encloses (h : d.IsTree n) : id ∈ d.order ↔ d.Encloses d.root id := by
  rw [h.mem_order_iff, encloses_iff_leads]

/-! ### Taking cells out -/

theorem held_without_member (h : d.IsTree n) {name : String}
    (hentry : (.member name, id) ∈ d.entries owner) :
    (d.changeContent owner (Content.without (.member owner name))).held owner =
      (d.held owner).erase id := by
  obtain ⟨before, after, hc⟩ := exists_members_of_entry hentry
  have hheld : d.held owner = before.map (·.2) ++ id :: after.map (·.2) := by
    rw [held, entries_of_content? hc, Content.object_targets, List.map_append, List.map_cons]
  have hnodup : (d.held owner).Nodup := h.targets_nodup owner
  have hbefore : id ∉ before.map (·.2) := fun hmem =>
    (List.nodup_append.1 (hheld ▸ hnodup)).2.2 id hmem id List.mem_cons_self rfl
  rw [hheld, List.erase_append_right _ hbefore, List.erase_cons_head, held,
    entries_changeContent hc, Content.without, Content.object_targets,
    filter_name_append (h.names_nodup hc), List.map_append]

theorem held_without_item (h : d.IsTree n) {index : Nat}
    (hentry : (.item index, id) ∈ d.entries owner) :
    (d.changeContent owner (Content.without (.item owner index))).held owner =
      (d.held owner).erase id := by
  obtain ⟨before, after, rfl, hc⟩ := exists_items_of_entry hentry
  have hheld : d.held owner = before ++ id :: after := by
    rw [held, entries_of_content? hc, Content.array_targets]
  have hnodup : (d.held owner).Nodup := h.targets_nodup owner
  have hbefore : id ∉ before := fun hmem =>
    (List.nodup_append.1 (hheld ▸ hnodup)).2.2 id hmem id List.mem_cons_self rfl
  rw [hheld, List.erase_append_right _ hbefore, List.erase_cons_head, held,
    entries_changeContent hc, Content.without, Content.array_targets,
    List.eraseIdx_append_of_length_le (Nat.le_refl _), Nat.sub_self, List.eraseIdx_cons_zero]

/-- A cell that is taken out leaves the container that holds it, and everything else stays. -/
theorem held_without (h : d.IsTree n) (id owner : Nat) :
    (d.without id).held owner = (d.held owner).erase id := by
  rw [Draft.without, remove?]
  rcases hs : d.slot? id with _ | s
  · -- no container holds the cell
    have hnot : id ∉ d.held owner := by
      intro hmem
      obtain ⟨key, hentry⟩ := mem_held_iff.1 hmem
      obtain ⟨s, hs'⟩ := exists_slot?_of_mem hentry
      simp [hs] at hs'
    rw [List.erase_of_not_mem hnot]
    rfl
  · have hentry := mem_entries_of_slot? hs
    rw [Option.map_some, Option.getD_some]
    by_cases howner : owner = s.owner
    · subst howner
      rcases s with ⟨object, name⟩ | ⟨array, index⟩
      · exact h.held_without_member hentry
      · exact h.held_without_item hentry
    · have hnot : id ∉ d.held owner := fun hmem =>
        howner (h.owner_unique hmem (mem_held_iff.2 ⟨s.key, hentry⟩))
      rw [List.erase_of_not_mem hnot, held, entries_changeContent_of_ne howner]
      rfl

theorem mem_held_without_iff (h : d.IsTree n) {other : Nat} :
    other ∈ (d.without id).held owner ↔ other ∈ d.held owner ∧ other ≠ id := by
  have hnodup : (d.held owner).Nodup := h.targets_nodup owner
  rw [h.held_without, hnodup.mem_erase_iff, and_comm]

/-- A tree stays one, with the same root, whatever is taken out of it. -/
theorem isTree_without (h : d.IsTree n) (id : Nat) :
    (d.without id).IsTree n ∧ (d.without id).root = d.root := by
  -- what a directive does with its own entry does not depend on its action
  obtain ⟨hedited, htree⟩ := h.without (List.mem_singleton_self (⟨id, .interpolate []⟩ : Directive))
  exact ⟨htree, hedited.root_eq⟩

theorem isTree_withoutAll (h : d.IsTree n) (ids : List Nat) :
    (d.withoutAll ids).IsTree n ∧ (d.withoutAll ids).root = d.root := by
  induction ids generalizing d with
  | nil => exact ⟨h, rfl⟩
  | cons id ids ih =>
    obtain ⟨htree, hroot⟩ := h.isTree_without id
    obtain ⟨hlast, hsame⟩ := ih htree
    exact ⟨hlast, hsame.trans hroot⟩

/-- Every container has lost the cells that were taken out, and no others. -/
theorem mem_held_withoutAll_iff (h : d.IsTree n) (ids : List Nat) :
    id ∈ (d.withoutAll ids).held owner ↔ id ∈ d.held owner ∧ id ∉ ids := by
  induction ids generalizing d with
  | nil => simp [Draft.withoutAll]
  | cons first ids ih =>
    have hrest := ih (h.isTree_without first).1
    rw [h.mem_held_without_iff] at hrest
    rw [List.mem_cons, not_or, ← and_assoc]
    exact hrest

/-- A cell stays in the document as long as neither it nor a container around it is taken out. The
root cannot be taken out. -/
theorem encloses_withoutAll_iff (h : d.IsTree n) (ids : List Nat) :
    (d.withoutAll ids).Encloses d.root id ↔
      d.Encloses d.root id ∧ ∀ a, d.Encloses a id → a = d.root ∨ a ∉ ids := by
  constructor
  · intro hleft
    induction hleft with
    | refl => exact ⟨.refl, fun a ha => .inl (h.eq_root_of_encloses ha)⟩
    | tail _ hmem ih =>
      obtain ⟨hheld, hid⟩ := (h.mem_held_withoutAll_iff ids).1 hmem
      refine ⟨ih.1.tail hheld, fun a ha => ?_⟩
      rcases (h.encloses_held_iff hheld).1 ha with rfl | ha
      · exact .inr hid
      · exact ih.2 a ha
  · rintro ⟨henclosed, hall⟩
    induction henclosed with
    | refl => exact .refl
    | @tail owner id _ hheld ih =>
      have hid : id ∉ ids := (hall id .refl).resolve_left fun heq =>
        h.root_not_mem_held owner (heq ▸ hheld)
      exact .tail (ih fun a ha => hall a (ha.tail hheld))
        ((h.mem_held_withoutAll_iff ids).2 ⟨hheld, hid⟩)

/-- The document has lost what lies in a cell that was taken out. -/
theorem mem_order_withoutAll_iff (h : d.IsTree n) (ids : List Nat) (id : Nat) :
    id ∈ (d.withoutAll ids).order ↔
      id ∈ d.order ∧ ∀ a, d.Encloses a id → a = d.root ∨ a ∉ ids := by
  obtain ⟨hlast, hroot⟩ := h.isTree_withoutAll ids
  rw [hlast.mem_order_iff_encloses, hroot, h.encloses_withoutAll_iff, h.mem_order_iff_encloses]

end IsTree

/-! ### The cells of a text -/

mutual

/-- A value takes as many cells as values begin in it. -/
theorem size_plant (cells : Array Cell) : (s : Source) →
    (plant cells s).1.size = cells.size + s.positions.length
  | .object members _ => by
    rw [plant, Array.size_push, size_plantMembers cells members]
    simp only [Source.positions, List.length_cons]
    omega
  | .array items _ => by
    rw [plant, Array.size_push, size_plantItems cells items]
    simp only [Source.positions, List.length_cons]
    omega
  | .scalar _ _ _ => by
    rw [plant, Array.size_push]
    rfl

theorem size_plantMembers (cells : Array Cell) : (members : List (String × Source)) →
    (plantMembers cells members).1.size = cells.size + (Source.memberPositions members).length
  | [] => rfl
  | (_, value) :: members => by
    rw [plantMembers, size_plantMembers _ members, size_plant cells value]
    simp only [Source.memberPositions, List.length_append]
    omega

theorem size_plantItems (cells : Array Cell) : (items : List Source) →
    (plantItems cells items).1.size = cells.size + (Source.itemPositions items).length
  | [] => rfl
  | value :: items => by
    rw [plantItems, size_plantItems _ items, size_plant cells value]
    simp only [Source.itemPositions, List.length_append]
    omega

end

theorem IsTree.lt_size_of_mem_order (h : d.IsTree n) (hid : id ∈ d.order) : id < d.cells.size := by
  rcases encloses_iff_eq_or.1 (h.mem_order_iff_encloses.1 hid) with rfl | ⟨owner, -, hmem⟩
  · exact h.root_lt.trans_le h.size_le
  · obtain ⟨key, hentry⟩ := mem_held_iff.1 hmem
    exact h.target_lt hentry

/-- All cells of a text are in its document. -/
theorem mem_order_ofSource {s : Source} (h : s.NamesDiffer) :
    id ∈ (ofSource s).order ↔ id < (ofSource s).cells.size := by
  have htree := isTree_ofSource h
  have hlength : (ofSource s).order.length = (ofSource s).cells.size := by
    rw [(order_sites h).length_eq, ← List.length_map (·.2.position), Source.positions_sites]
    show s.positions.length = (plant #[] s).1.size
    rw [size_plant, List.size_toArray, List.length_nil, Nat.zero_add]
  -- as many different numbers below the size as there are
  have hsub : (ofSource s).order ⊆ List.range (ofSource s).cells.size := fun id hid =>
    List.mem_range.2 (htree.lt_size_of_mem_order hid)
  have hperm : (ofSource s).order.Perm (List.range (ofSource s).cells.size) :=
    (List.subperm_of_subset htree.order_nodup hsub).perm_of_length_le
      (by rw [List.length_range, hlength])
  rw [hperm.mem_iff, List.mem_range]

theorem mem_order_of_held {s : Source} (h : s.NamesDiffer) (hmem : id ∈ (ofSource s).held owner) :
    id ∈ (ofSource s).order := by
  obtain ⟨key, hentry⟩ := mem_held_iff.1 hmem
  exact (mem_order_ofSource h).2 ((isTree_ofSource h).target_lt hentry)

/-! ### Removals -/

/-- Of the cells of a text, those that were not taken out themselves are attached. -/
theorem isAttached_withoutAll_iff {s : Source} (h : s.NamesDiffer) (ids : List Nat) (id : Nat) :
    ((ofSource s).withoutAll ids).isAttached id ↔
      id ∈ (ofSource s).order ∧ (id = (ofSource s).root ∨ id ∉ ids) := by
  have htree := isTree_ofSource h
  rw [isAttached_iff, (htree.isTree_withoutAll ids).2]
  constructor
  · rintro (rfl | ⟨owner, hmem⟩)
    · exact ⟨htree.mem_order_iff_encloses.2 .refl, .inl rfl⟩
    · obtain ⟨hheld, hid⟩ := (htree.mem_held_withoutAll_iff ids).1 hmem
      exact ⟨mem_order_of_held h hheld, .inr hid⟩
  · rintro ⟨hmem, hid⟩
    rcases encloses_iff_eq_or.1 (htree.mem_order_iff_encloses.1 hmem) with
      heq | ⟨owner, -, hheld⟩
    · exact .inl heq.symm
    · refine hid.imp_right fun hid => ?_
      exact ⟨owner, (htree.mem_held_withoutAll_iff ids).2 ⟨hheld, hid⟩⟩

/-- After any removals from the draft of a text, in any order, the cells that are attached are the
root and those that have not been taken out themselves. The document has every cell once that can
still be reached from the root, so it has lost everything in a cell that was taken out as well. All
of it is attached, and nothing else is exactly if whatever lies in a cell that was taken out has
been taken out too. -/
theorem attachment_after_removals {text : String} {tree : Source} (h : readJson text = .ok tree)
    (ids : List Nat) :
    (∀ id, ((ofSource tree).withoutAll ids).isAttached id ↔
      id ∈ (ofSource tree).order ∧ (id = (ofSource tree).root ∨ id ∉ ids)) ∧
    ((ofSource tree).withoutAll ids).order.Nodup ∧
    (∀ id, id ∈ ((ofSource tree).withoutAll ids).order ↔
      ((ofSource tree).withoutAll ids).Encloses ((ofSource tree).withoutAll ids).root id) ∧
    (∀ id, id ∈ ((ofSource tree).withoutAll ids).order ↔
      id ∈ (ofSource tree).order ∧
        ∀ a, (ofSource tree).Encloses a id → a = (ofSource tree).root ∨ a ∉ ids) ∧
    (∀ id ∈ ((ofSource tree).withoutAll ids).order,
      ((ofSource tree).withoutAll ids).isAttached id) ∧
    ((∀ id, ((ofSource tree).withoutAll ids).isAttached id ↔
        id ∈ ((ofSource tree).withoutAll ids).order) ↔
      ∀ a ∈ ids, a ≠ (ofSource tree).root →
        ∀ id, (ofSource tree).Encloses a id → id ∈ ids) := by
  have hnames := readJson_namesDiffer h
  have htree := isTree_ofSource hnames
  have hattached := isAttached_withoutAll_iff hnames ids
  have horder := htree.mem_order_withoutAll_iff ids
  have hlast := (htree.isTree_withoutAll ids).1
  refine ⟨hattached, hlast.order_nodup, fun id => hlast.mem_order_iff_encloses, horder, ?_, ?_⟩
  · intro id hid
    obtain ⟨hmem, haround⟩ := (horder id).1 hid
    exact (hattached id).2 ⟨hmem, haround id .refl⟩
  · simp only [hattached, horder]
    constructor
    · intro hagree a ha hne id henclosed
      by_contra hid
      rcases encloses_iff_eq_or.1 henclosed with rfl | ⟨owner, -, hheld⟩
      · exact hid ha
      · -- the cell is attached, but it is in a cell that was taken out
        obtain ⟨-, haround⟩ := (hagree id).1 ⟨mem_order_of_held hnames hheld, .inr hid⟩
        exact (haround a henclosed).elim hne fun hnot => hnot ha
    · intro hbelow id
      refine and_congr_right fun _ => ⟨fun hid a ha => ?_, fun haround => haround id .refl⟩
      by_contra hnot
      obtain ⟨hne, hmem⟩ := not_or.1 hnot
      rw [not_not] at hmem
      rcases hid with rfl | hid
      · exact hne (htree.eq_root_of_encloses ha)
      · exact hid (hbelow a hmem hne id ha)

/-- Two containers, of which one is taken out whole and the other one loses an item. -/
theorem attachment_after_removals_nested :
    ∃ tree, readJson "\x7b\"A\": \x7b\"B\": 1\x7d, \"C\": [2, 3]\x7d" = .ok tree ∧
      (ofSource tree).order = [5, 1, 0, 4, 2, 3] ∧
      (∀ id, ((ofSource tree).withoutAll [1, 2]).isAttached id ↔
        id ∈ (ofSource tree).order ∧ (id = (ofSource tree).root ∨ id ∉ [1, 2])) ∧
      ((ofSource tree).withoutAll [1, 2]).order.Nodup ∧
      (∀ id, id ∈ ((ofSource tree).withoutAll [1, 2]).order ↔
        ((ofSource tree).withoutAll [1, 2]).Encloses
          ((ofSource tree).withoutAll [1, 2]).root id) ∧
      (∀ id, id ∈ ((ofSource tree).withoutAll [1, 2]).order ↔
        id ∈ (ofSource tree).order ∧
          ∀ a, (ofSource tree).Encloses a id → a = (ofSource tree).root ∨ a ∉ [1, 2]) ∧
      (∀ id ∈ ((ofSource tree).withoutAll [1, 2]).order,
        ((ofSource tree).withoutAll [1, 2]).isAttached id) ∧
      ((∀ id, ((ofSource tree).withoutAll [1, 2]).isAttached id ↔
          id ∈ ((ofSource tree).withoutAll [1, 2]).order) ↔
        ∀ a ∈ [1, 2], a ≠ (ofSource tree).root →
          ∀ id, (ofSource tree).Encloses a id → id ∈ [1, 2]) := by
  have horder : (readJson "\x7b\"A\": \x7b\"B\": 1\x7d, \"C\": [2, 3]\x7d").toOption.map
      (fun tree => (ofSource tree).order) = some [5, 1, 0, 4, 2, 3] := by decide +kernel
  obtain ⟨tree, htree, horder⟩ := Option.map_eq_some_iff.1 horder
  have hread := Except.toOption_eq_some_iff.1 htree
  exact ⟨tree, hread, horder, attachment_after_removals hread [1, 2]⟩

/-- A cell in a container that was taken out is attached, but it is no part of the document. -/
theorem attached_outside_document :
    ∃ tree, readJson "\x7b\"A\":\x7b\"B\":1\x7d\x7d" = .ok tree ∧
      (ofSource tree).order = [2, 1, 0] ∧
      ((ofSource tree).withoutAll [1]).isAttached 0 = true ∧
      0 ∉ ((ofSource tree).withoutAll [1]).order := by
  have hcells : (readJson "\x7b\"A\":\x7b\"B\":1\x7d\x7d").toOption.map
      (fun tree => ((ofSource tree).order, ((ofSource tree).withoutAll [1]).isAttached 0,
        ((ofSource tree).withoutAll [1]).order)) = some ([2, 1, 0], true, [2]) := by decide +kernel
  obtain ⟨tree, htree, hcells⟩ := Option.map_eq_some_iff.1 hcells
  obtain ⟨horder, hrest⟩ := Prod.mk.inj hcells
  obtain ⟨hattached, hlast⟩ := Prod.mk.inj hrest
  refine ⟨tree, Except.toOption_eq_some_iff.1 htree, horder, hattached, ?_⟩
  rw [hlast]
  decide

end Draft

end DocQuery
