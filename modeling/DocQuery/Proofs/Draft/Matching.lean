/-
Drafts that a compilation cannot tell apart.

* `Correspondence.IsFaithful` — corresponding paths lie to one another alike;
* `Correspondence.Builds` — what is built or copied alike in two documents corresponds;
* `Draft.Corresponds` — the same cells, of which those with finished values hold corresponding ones;
* `Draft.Corresponds.freeze` — such drafts have become corresponding values.

Design notes: containers name cells by their numbers, so two such drafts have the same containers and
the same slots, and whatever is changed in both is changed at the same cells. A name that an object
has twice leaves one member, so the values of objects always have different names.
-/
import DocQuery.Proofs.Draft.Frozen
import DocQuery.Proofs.Formula.Agreement
import DocQuery.Proofs.Formula.Correspondence

namespace DocQuery

/-! ### Building values -/

namespace Correspondence

/-- Whether corresponding paths lead the same way, in documents that are told apart alike. -/
structure IsFaithful (C : Correspondence) : Prop where
  keys_eq : ∀ {p p'}, C.path p p' → p'.keys = p.keys
  document_iff : ∀ {p p' q q'}, C.path p p' → C.path q q' →
    (p.document = q.document ↔ p'.document = q'.document)

/-- Whether two members have one name and corresponding values, which stand at that name in objects
at `p` and `p'`. -/
structure Members (C : Correspondence) (p p' : Path) (m m' : String × Node) : Prop where
  name_eq : m'.1 = m.1
  value : C.node m.2 m'.2
  path_eq : m.2.path = p.member m.1
  path_eq' : m'.2.path = p'.member m'.1

/-- Whether values that are built, or copied, at the same keys of two documents correspond. -/
structure Builds (C : Correspondence) (id id' : String) : Prop where
  path : ∀ keys, C.path ⟨id, keys⟩ ⟨id', keys⟩
  scalar : ∀ keys s, C.node (.scalar (.at ⟨id, keys⟩) s) (.scalar (.at ⟨id', keys⟩) s)
  array : ∀ keys {ns ns'}, List.Forall₂ C.node ns ns' →
    (∀ i n, ns[i]? = some n → n.path = Path.item ⟨id, keys⟩ i) →
    (∀ i n, ns'[i]? = some n → n.path = Path.item ⟨id', keys⟩ i) →
    C.node (.array (.at ⟨id, keys⟩) ns) (.array (.at ⟨id', keys⟩) ns')
  object : ∀ keys {ms ms'}, List.Forall₂ (C.Members ⟨id, keys⟩ ⟨id', keys⟩) ms ms' →
    (ms.map (·.1)).Nodup →
    C.node (.object (.at ⟨id, keys⟩) ms) (.object (.at ⟨id', keys⟩) ms')
  copied : ∀ keys {n n'}, C.node n n' →
    C.node (n.copiedTo ⟨id, keys⟩) (n'.copiedTo ⟨id', keys⟩)

variable {C : Correspondence} {id id' : String}

/-- A correspondence of paths with themselves. -/
theorem IsFaithful.of_eq (h : ∀ p p', C.path p p' → p = p') : C.IsFaithful where
  keys_eq hp := congrArg Path.keys (h _ _ hp).symm
  document_iff hp hq := by rw [h _ _ hp, h _ _ hq]

theorem IsFaithful.eq_iff (hC : C.IsFaithful) {p p' q q' : Path} (hp : C.path p p')
    (hq : C.path q q') : p = q ↔ p' = q' := by
  obtain ⟨document, keys⟩ := p
  obtain ⟨document', keys'⟩ := p'
  obtain ⟨other, more⟩ := q
  obtain ⟨other', more'⟩ := q'
  obtain rfl : keys' = keys := hC.keys_eq hp
  obtain rfl : more' = more := hC.keys_eq hq
  have hdocument : document = other ↔ document' = other' := hC.document_iff hp hq
  rw [Path.mk.injEq, Path.mk.injEq, hdocument]

/-- Values that are there already stay, and others are copied, in both documents. -/
theorem Builds.moved (hB : C.Builds id id') (hC : C.IsFaithful) (keys : List Key) {n n' : Node}
    (h : C.node n n') :
    C.node (if n.path = ⟨id, keys⟩ then n else n.copiedTo ⟨id, keys⟩)
      (if n'.path = ⟨id', keys⟩ then n' else n'.copiedTo ⟨id', keys⟩) := by
  have hiff := hC.eq_iff (C.path_of_node h) (hB.path keys)
  by_cases hthere : n.path = ⟨id, keys⟩
  · rw [if_pos hthere, if_pos (hiff.1 hthere)]
    exact h
  · rw [if_neg hthere, if_neg (mt hiff.2 hthere)]
    exact hB.copied keys h

theorem Builds.copyItems (hB : C.Builds id id') (keys : List Key) {ns ns' : List Node}
    (h : List.Forall₂ C.node ns ns') (index : Nat) :
    List.Forall₂ C.node (Node.copyItems ⟨id, keys⟩ index ns)
      (Node.copyItems ⟨id', keys⟩ index ns') := by
  induction h generalizing index with
  | nil => exact .nil
  | cons hn _ ih =>
    rw [Node.copyItems, Node.copyItems]
    exact .cons (hB.copied _ hn) (ih _)

end Correspondence

theorem Node.path_copyItems {path : Path} {index i : Nat} {ns : List Node} {n : Node}
    (h : (copyItems path index ns)[i]? = some n) : n.path = path.item (index + i) := by
  induction ns generalizing index i with
  | nil => simp [copyItems] at h
  | cons m ns ih =>
    rw [copyItems] at h
    rcases i with _ | i
    · obtain rfl := Option.some.inj h
      exact path_copiedTo m _
    · rw [List.getElem?_cons_succ] at h
      rw [ih h]
      congr 1
      omega

namespace Correspondence

variable {C : Correspondence} {id id' : String}

/-- What corresponding values become in a document. -/
theorem Values.toNode? (hB : C.Builds id id') (hC : C.IsFaithful) (keys : List Key) {v v' : Value}
    (h : C.Values v v') :
    Option.Rel C.node (v.toNode? ⟨id, keys⟩) (v'.toNode? ⟨id', keys⟩) := by
  cases h with
  | @computed v hv =>
    cases v with
    | undefined => exact .none
    | null | boolean | number | text | moment => exact .some (hB.scalar keys _)
    | node | nodes => cases hv
  | node hn => exact .some (hB.moved hC keys hn)
  | nodes hns =>
    refine .some (hB.array keys (hB.copyItems keys hns 0) ?_ ?_)
    · intro i n hi
      rw [Node.path_copyItems hi, Nat.zero_add]
    · intro i n hi
      rw [Node.path_copyItems hi, Nat.zero_add]

end Correspondence

/-! ### Drafts -/

/-- Whether two contents name the same cells, or are one scalar or corresponding values. -/
inductive Content.Corresponds (C : Correspondence) : Content → Content → Prop
  | object (members : List (String × Nat)) : Corresponds C (.object members) (.object members)
  | array (items : List Nat) : Corresponds C (.array items) (.array items)
  | scalar (s : Scalar) : Corresponds C (.scalar s) (.scalar s)
  | imported {n n' : Node} : C.node n n' → Corresponds C (.imported n) (.imported n')

/-- Whether two cells are at one position and hold corresponding contents. -/
structure Cell.Corresponds (C : Correspondence) (c c' : Cell) : Prop where
  content : c.content.Corresponds C c'.content
  position_eq : c'.position = c.position

/-- Whether two drafts have the same root and corresponding cells. -/
structure Draft.Corresponds (C : Correspondence) (d d' : Draft) : Prop where
  root_eq : d'.root = d.root
  cells : List.Forall₂ (Cell.Corresponds C) d.cells.toList d'.cells.toList

variable {C : Correspondence} {d d' : Draft} {c c' : Content}

theorem Content.Corresponds.entries_eq (h : c.Corresponds C c') : c'.entries = c.entries := by
  cases h <;> rfl

theorem Content.Corresponds.slot?_eq (h : c.Corresponds C c') (owner id : Nat) :
    c'.slot? owner id = c.slot? owner id := by
  cases h <;> rfl

theorem Content.Corresponds.without (h : c.Corresponds C c') (slot : Slot) :
    (Content.without slot c).Corresponds C (Content.without slot c') := by
  cases h with
  | object members => cases slot <;> exact .object _
  | array items => cases slot <;> exact .array _
  | scalar s => cases slot <;> exact .scalar s
  | imported hn => cases slot <;> exact .imported hn

namespace Draft.Corresponds

theorem size_eq (h : d.Corresponds C d') : d'.cells.size = d.cells.size := by
  rw [← Array.length_toList, ← Array.length_toList, h.cells.length_eq]

theorem cell? (h : d.Corresponds C d') (id : Nat) :
    Option.Rel (Cell.Corresponds C) d.cells[id]? d'.cells[id]? := by
  rw [← Array.getElem?_toList, ← Array.getElem?_toList]
  exact Correspondence.getElem? h.cells id

theorem content? (h : d.Corresponds C d') (id : Nat) :
    Option.Rel (Content.Corresponds C) (d.content? id) (d'.content? id) := by
  have hcell := h.cell? id
  rw [Draft.content?, Draft.content?]
  generalize d.cells[id]? = found at hcell ⊢
  generalize d'.cells[id]? = found' at hcell ⊢
  cases hcell with
  | none => exact .none
  | some hc => exact .some hc.content

theorem positionOf_eq (h : d.Corresponds C d') (id : Nat) : d'.positionOf id = d.positionOf id := by
  have hcell := h.cell? id
  rw [positionOf, positionOf]
  generalize d.cells[id]? = found at hcell ⊢
  generalize d'.cells[id]? = found' at hcell ⊢
  cases hcell with
  | none => rfl
  | some hc => exact hc.position_eq

theorem entries_eq (h : d.Corresponds C d') (id : Nat) : d'.entries id = d.entries id := by
  have hcontent := h.content? id
  rw [entries, entries]
  generalize d.content? id = found at hcontent ⊢
  generalize d'.content? id = found' at hcontent ⊢
  cases hcontent with
  | none => rfl
  | some hc => exact hc.entries_eq

theorem memberNames_eq (h : d.Corresponds C d') (id : Nat) :
    d'.memberNames id = d.memberNames id := by
  have hcontent := h.content? id
  rw [memberNames, memberNames]
  generalize d.content? id = found at hcontent ⊢
  generalize d'.content? id = found' at hcontent ⊢
  cases hcontent with
  | none => rfl
  | some hc => cases hc <;> rfl

theorem slot?_eq (h : d.Corresponds C d') (id : Nat) : d'.slot? id = d.slot? id := by
  have hcells := h.cells
  rw [slot?, slot?]
  generalize d.cells.toList = cells at hcells ⊢
  generalize d'.cells.toList = cells' at hcells ⊢
  have hall : ∀ k, (cells'.zipIdx k).findSome? (fun entry => entry.1.content.slot? entry.2 id) =
      (cells.zipIdx k).findSome? (fun entry => entry.1.content.slot? entry.2 id) := by
    induction hcells with
    | nil => exact fun _ => rfl
    | cons hc _ ih =>
      intro k
      rw [List.zipIdx_cons, List.zipIdx_cons, List.findSome?_cons, List.findSome?_cons, ih]
      simp only [hc.content.slot?_eq]
  exact hall 0

theorem isAttached_eq (h : d.Corresponds C d') (id : Nat) : d'.isAttached id = d.isAttached id := by
  rw [isAttached, isAttached, h.root_eq, h.slot?_eq]

theorem walk_eq (h : d.Corresponds C d') : d'.walk = d.walk := by
  have hall : ∀ fuel keys id, d'.walkFrom fuel keys id = d.walkFrom fuel keys id := by
    intro fuel
    induction fuel with
    | zero => exact fun _ _ => rfl
    | succ fuel ih =>
      intro keys id
      simp only [walkFrom_succ, h.entries_eq, ih]
  rw [walk, walk, h.size_eq, h.root_eq, hall]

/-! ### Changes -/

/-- A change of one cell in both drafts. -/
theorem modify (h : d.Corresponds C d') (id : Nat) {change change' : Cell → Cell}
    (hchange : ∀ c c', c.Corresponds C c' → (change c).Corresponds C (change' c')) :
    Draft.Corresponds C { d with cells := d.cells.modify id change }
      { d' with cells := d'.cells.modify id change' } := by
  refine ⟨h.root_eq, ?_⟩
  have hcells := h.cells
  show List.Forall₂ _ (d.cells.modify id change).toList (d'.cells.modify id change').toList
  rw [Array.toList_modify, Array.toList_modify]
  generalize d.cells.toList = cells at hcells ⊢
  generalize d'.cells.toList = cells' at hcells ⊢
  induction hcells generalizing id with
  | nil =>
    rw [List.modify_nil, List.modify_nil]
    exact .nil
  | cons hc hcs ih =>
    rcases id with _ | id
    · exact .cons (hchange _ _ hc) hcs
    · exact .cons hc (ih id)

theorem setContent (h : d.Corresponds C d') (id : Nat) (hc : c.Corresponds C c') :
    (d.setContent id c).Corresponds C (d'.setContent id c') :=
  h.modify id fun _ _ hcell => ⟨hc, hcell.position_eq⟩

theorem changeContent (h : d.Corresponds C d') (id : Nat) {change : Content → Content}
    (hchange : ∀ c c', c.Corresponds C c' → (change c).Corresponds C (change c')) :
    (d.changeContent id change).Corresponds C (d'.changeContent id change) :=
  h.modify id fun _ _ hcell => ⟨hchange _ _ hcell.content, hcell.position_eq⟩

theorem without (h : d.Corresponds C d') (id : Nat) :
    (d.without id).Corresponds C (d'.without id) := by
  rw [Draft.without, Draft.without, remove?, remove?, h.slot?_eq]
  rcases d.slot? id with _ | slot
  · exact h
  · exact h.changeContent _ fun _ _ hc => hc.without slot

theorem spliceMember (h : d.Corresponds C d') (object : Nat) (name : String)
    (replacement : List (String × Nat)) :
    (d.spliceMember object name replacement).Corresponds C
      (d'.spliceMember object name replacement) := by
  refine h.changeContent object fun c c' hc => ?_
  cases hc with
  | object members => exact .object _
  | array items => exact .array items
  | scalar s => exact .scalar s
  | imported hn => exact .imported hn

/-- Finished values are put behind the cells, where they get the same numbers. -/
theorem addAll (h : d.Corresponds C d') (position : Position) {ns ns' : List Node}
    (hns : List.Forall₂ C.node ns ns') :
    (d.addAll position ns).1.Corresponds C (d'.addAll position ns').1 ∧
      (d'.addAll position ns').2 = (d.addAll position ns).2 := by
  rw [addAll_eq, addAll_eq, h.size_eq, hns.length_eq]
  refine ⟨⟨h.root_eq, ?_⟩, rfl⟩
  simp only [Array.toList_append]
  refine List.rel_append h.cells ?_
  rw [List.forall₂_map_left_iff, List.forall₂_map_right_iff]
  exact hns.imp fun _ _ hn => ⟨.imported hn, rfl⟩

end Draft.Corresponds

section Planting

mutual

/-- The cells of a text hold no finished values. -/
theorem plant_corresponds (C : Correspondence) {cells : Array Cell}
    (h : List.Forall₂ (Cell.Corresponds C) cells.toList cells.toList) : (source : Source) →
    List.Forall₂ (Cell.Corresponds C) (Draft.plant cells source).1.toList
      (Draft.plant cells source).1.toList
  | .object members position => by
    rw [Draft.plant, Array.toList_push]
    exact List.rel_append (plantMembers_corresponds C h members) (.cons ⟨.object _, rfl⟩ .nil)
  | .array items position => by
    rw [Draft.plant, Array.toList_push]
    exact List.rel_append (plantItems_corresponds C h items) (.cons ⟨.array _, rfl⟩ .nil)
  | .scalar s columns position => by
    rw [Draft.plant, Array.toList_push]
    exact List.rel_append h (.cons ⟨.scalar s, rfl⟩ .nil)

theorem plantMembers_corresponds (C : Correspondence) {cells : Array Cell}
    (h : List.Forall₂ (Cell.Corresponds C) cells.toList cells.toList) :
    (members : List (String × Source)) →
    List.Forall₂ (Cell.Corresponds C) (Draft.plantMembers cells members).1.toList
      (Draft.plantMembers cells members).1.toList
  | [] => h
  | (_, value) :: members => by
    rw [Draft.plantMembers]
    exact plantMembers_corresponds C (plant_corresponds C h value) members

theorem plantItems_corresponds (C : Correspondence) {cells : Array Cell}
    (h : List.Forall₂ (Cell.Corresponds C) cells.toList cells.toList) : (items : List Source) →
    List.Forall₂ (Cell.Corresponds C) (Draft.plantItems cells items).1.toList
      (Draft.plantItems cells items).1.toList
  | [] => h
  | value :: items => by
    rw [Draft.plantItems]
    exact plantItems_corresponds C (plant_corresponds C h value) items

end

/-- The draft of a text corresponds to itself, whatever corresponds. -/
theorem Draft.ofSource_corresponds (C : Correspondence) (source : Source) :
    (ofSource source).Corresponds C (ofSource source) :=
  ⟨rfl, plant_corresponds C .nil source⟩

end Planting

/-! ### Values of drafts -/

namespace Draft

variable {p p' : Path} {ms ms' : List (String × Node)}

theorem putMember_corresponds {name : String} {n n' : Node}
    (hm : C.Members p p' (name, n) (name, n')) (h : List.Forall₂ (C.Members p p') ms ms') :
    List.Forall₂ (C.Members p p') (putMember name n ms) (putMember name n' ms') := by
  induction h with
  | nil => exact .cons hm .nil
  | @cons a a' as as' ha has ih =>
    rw [putMember, putMember, ha.name_eq]
    by_cases hname : a.1 = name
    · rw [if_pos hname, if_pos hname]
      exact .cons hm has
    · rw [if_neg hname, if_neg hname]
      exact .cons ha ih

theorem names_putMember (name : String) (value : Node) (ms : List (String × Node)) :
    (putMember name value ms).map (·.1) =
      if name ∈ ms.map (·.1) then ms.map (·.1) else ms.map (·.1) ++ [name] := by
  induction ms with
  | nil => rfl
  | cons m ms ih =>
    rw [putMember]
    by_cases hname : m.1 = name
    · rw [if_pos hname, if_pos (by simp [hname])]
      simp [hname]
    · rw [if_neg hname, List.map_cons, ih]
      by_cases hmem : name ∈ ms.map (·.1)
      · rw [if_pos hmem, if_pos (by simp [hmem])]
        simp
      · rw [if_neg hmem, if_neg (by simpa [Ne.symm hname] using hmem)]
        simp

theorem names_putMember_nodup {name : String} {value : Node} (h : (ms.map (·.1)).Nodup) :
    ((putMember name value ms).map (·.1)).Nodup := by
  rw [names_putMember]
  split
  · exact h
  · rename_i hfresh
    exact h.append (List.nodup_singleton _) (by simpa using hfresh)

/-- Members that are put one after the other stay different and corresponding. -/
theorem foldl_putMember_corresponds {earlier earlier' : List (String × Node)}
    (hearlier : List.Forall₂ (C.Members p p') earlier earlier')
    (hnodup : (earlier.map (·.1)).Nodup) (h : List.Forall₂ (C.Members p p') ms ms') :
    List.Forall₂ (C.Members p p')
        (ms.foldl (fun earlier m => putMember m.1 m.2 earlier) earlier)
        (ms'.foldl (fun earlier m => putMember m.1 m.2 earlier) earlier') ∧
      ((ms.foldl (fun earlier m => putMember m.1 m.2 earlier) earlier).map (·.1)).Nodup := by
  induction h generalizing earlier earlier' with
  | nil => exact ⟨hearlier, hnodup⟩
  | @cons m m' _ _ hm _ ih =>
    obtain ⟨name, n⟩ := m
    obtain ⟨name', n'⟩ := m'
    obtain rfl : name' = name := hm.name_eq
    exact ih (putMember_corresponds hm hearlier) (names_putMember_nodup hnodup)

/-- The items of an array stand at their positions. -/
theorem path_of_frozen_item (d : Draft) {fuel i : Nat} {path : Path} {items : List Nat} {n : Node}
    (h : (items.zipIdx.map fun (child, index) =>
      d.freezeFrom fuel (path.item index) child)[i]? = some n) : n.path = path.item i := by
  rw [List.getElem?_map, List.getElem?_zipIdx] at h
  obtain ⟨⟨child, index⟩, hchild, rfl⟩ := Option.map_eq_some_iff.1 h
  obtain ⟨_, _, heq⟩ := Option.map_eq_some_iff.1 hchild
  obtain ⟨rfl, rfl⟩ := Prod.mk.inj heq
  rw [path_freezeFrom, Nat.zero_add]

end Draft

namespace Draft.Corresponds

variable {id id' : String}

/-- Corresponding drafts have become corresponding values. -/
theorem freezeFrom (h : d.Corresponds C d') (hB : C.Builds id id') (hC : C.IsFaithful)
    (fuel : Nat) (keys : List Key) (cell : Nat) :
    C.node (d.freezeFrom fuel ⟨id, keys⟩ cell) (d'.freezeFrom fuel ⟨id', keys⟩ cell) := by
  induction fuel generalizing keys cell with
  | zero => exact hB.scalar keys .null
  | succ fuel ih =>
    have hcontent := h.content? cell
    rw [Draft.freezeFrom, Draft.freezeFrom]
    generalize d.content? cell = found at hcontent ⊢
    generalize d'.content? cell = found' at hcontent ⊢
    cases hcontent with
    | none => exact hB.scalar keys .null
    | some hc =>
      cases hc with
      | object members =>
        have hmembers : List.Forall₂ (C.Members ⟨id, keys⟩ ⟨id', keys⟩)
            (members.map fun m => (m.1, d.freezeFrom fuel (Path.member ⟨id, keys⟩ m.1) m.2))
            (members.map fun m => (m.1, d'.freezeFrom fuel (Path.member ⟨id', keys⟩ m.1) m.2)) := by
          rw [List.forall₂_map_left_iff, List.forall₂_map_right_iff, List.forall₂_same]
          intro m _
          have hvalue := ih (keys ++ [.member m.1]) m.2
          exact ⟨rfl, hvalue, path_freezeFrom .., path_freezeFrom ..⟩
        -- of two members of one name, the later value takes the place of the earlier in both
        obtain ⟨hall, hnodup⟩ := foldl_putMember_corresponds .nil List.nodup_nil hmembers
        exact hB.object keys hall hnodup
      | array items =>
        refine hB.array keys ?_ (fun _ _ => path_of_frozen_item d)
          (fun _ _ => path_of_frozen_item d')
        rw [List.forall₂_map_left_iff, List.forall₂_map_right_iff, List.forall₂_same]
        intro i _
        have hitem := ih (keys ++ [.item i.2]) i.1
        exact hitem
      | scalar s => exact hB.scalar keys s
      | imported hn => exact hB.moved hC keys hn

theorem freeze (h : d.Corresponds C d') (hB : C.Builds id id') (hC : C.IsFaithful) :
    C.node (d.freeze id) (d'.freeze id') := by
  rw [Draft.freeze, Draft.freeze, h.size_eq, h.root_eq]
  exact h.freezeFrom hB hC _ [] _

end Draft.Corresponds

end DocQuery
