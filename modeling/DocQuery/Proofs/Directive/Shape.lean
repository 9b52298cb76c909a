/-
The shape of a draft during the work on it.

* `Draft.IsTree.sublist_order` — a container comes before all that is in it;
* `Draft.map_positionOf_order` — the cells of a text begin where its values do, in the same order;
* `Content.Becomes` — the value of a cell has all that the cell names;
* `Draft.IsOrderly` — cells that can be reached have one slot each, and names differ;
* `Engine.drafts_stay_orderly` — every draft of the work on a text is such.

Design notes: below a cell a walk of the document does what a walk from that cell does. So what is
said of the first cell of a walk can be said of every cell. That a draft is a tree is an invariant
of the work, and all the rest is read off a tree.
-/
import DocQuery.Proofs.Directive.Survival
import DocQuery.Proofs.Source.Outline
import DocQuery.Proofs.Source.Places

namespace DocQuery

namespace Draft

variable {d : Draft} {n id last fuel : Nat} {keys more : List Key}

/-! ### Containers come first -/

/-- The order from a cell holds the order from each of its entries. -/
theorem orderFrom_entry_sublist {e : Key × Nat} (he : e ∈ d.entries id) :
    (d.orderFrom fuel e.2).Sublist (d.orderFrom (fuel + 1) id) := by
  rw [orderFrom_succ, List.flatMap]
  have hentry := List.mem_map_of_mem (f := d.orderFrom fuel) (List.mem_map_of_mem (f := (·.2)) he)
  exact (List.sublist_flatten_of_mem hentry).cons _

namespace IsTree

/-- The order from a cell holds the order from every cell to which keys lead. -/
theorem orderFrom_leads_sublist (h : d.IsTree n) (hf : Enough n d fuel id)
    (hleads : d.Leads id more last) :
    ∃ rest, Enough n d (rest + 1) last ∧
      (d.orderFrom (rest + 1) last).Sublist (d.orderFrom fuel id) := by
  induction hleads generalizing fuel with
  | here id =>
    obtain ⟨fuel, rfl⟩ := Nat.exists_eq_succ_of_ne_zero (Nat.pos_iff_ne_zero.1 hf.1)
    exact ⟨fuel, hf, List.Sublist.refl _⟩
  | down he _ ih =>
    obtain ⟨fuel, rfl⟩ := Nat.exists_eq_succ_of_ne_zero (Nat.pos_iff_ne_zero.1 hf.1)
    obtain ⟨rest, henough, hsub⟩ := ih (h.enough_child hf he)
    exact ⟨rest, henough, hsub.trans (orderFrom_entry_sublist he)⟩

/-- A container comes before all that is in it. -/
theorem sublist_order (h : d.IsTree n) (hid : id ∈ d.order) (hleads : d.Leads id more last)
    (hne : more ≠ []) : [id, last].Sublist d.order := by
  obtain ⟨keys, hkeys⟩ := h.mem_order_iff.1 hid
  rw [order, walk, map_walkFrom]
  obtain ⟨rest, henough, hsub⟩ := h.orderFrom_leads_sublist h.enough_root hkeys
  refine List.Sublist.trans ?_ hsub
  -- the order from the container begins with it and goes on with its entries, the first of which
  -- on the way has the order from the other cell in its own
  rcases hleads with _ | ⟨he, hrest⟩
  · exact absurd rfl hne
  · obtain ⟨below, hbelow, hdeeper⟩ := h.orderFrom_leads_sublist (h.enough_child henough he) hrest
    rw [orderFrom_succ, List.flatMap]
    refine List.Sublist.cons_cons _ (List.singleton_sublist.2 ?_)
    have hentry :=
      List.mem_map_of_mem (f := d.orderFrom rest) (List.mem_map_of_mem (f := (·.2)) he)
    refine (List.sublist_flatten_of_mem hentry).mem (hdeeper.mem ?_)
    rw [orderFrom_succ]
    exact List.mem_cons_self

end IsTree

/-! ### The order of the text -/

/-- Where the values in and below a cell begin in the text. -/
def positionsFrom (d : Draft) (fuel id : Nat) : List Position :=
  (d.orderFrom fuel id).map d.positionOf

theorem positionsFrom_succ (d : Draft) (fuel id : Nat) :
    d.positionsFrom (fuel + 1) id =
      d.positionOf id :: ((d.entries id).map (·.2)).flatMap (d.positionsFrom fuel) := by
  rw [positionsFrom, orderFrom_succ, List.map_cons, List.map_flatMap]
  rfl

theorem positionOf_push_append (cells added : Array Cell) (root : Nat) (c : Cell) :
    positionOf ⟨cells.push c ++ added, root⟩ cells.size = c.position := by
  rw [positionOf, Array.getElem?_append_left (by simp), Array.getElem?_push_size]
  rfl

/-- A container that is planted begins before what it holds. -/
theorem positionsFrom_push (cells added : Array Cell) (root fuel : Nat) (c : Cell) :
    positionsFrom ⟨cells.push c ++ added, root⟩ (fuel + 1) cells.size =
      c.position :: (c.content.entries.map (·.2)).flatMap
        (positionsFrom ⟨cells ++ (#[c] ++ added), root⟩ fuel) := by
  rw [positionsFrom_succ, entries_of_content? (content?_push_append ..), positionOf_push_append,
    push_append]

mutual

/-- The cells of a value that is planted begin where its parts do. -/
theorem positionsFrom_plant (cells added : Array Cell) (root : Nat) {s : Source}
    (h : s.NamesDiffer) {fuel : Nat} (hfuel : (plant cells s).2 < fuel) :
    positionsFrom ⟨(plant cells s).1 ++ added, root⟩ fuel (plant cells s).2 = s.positions := by
  obtain ⟨fuel, rfl⟩ : ∃ rest, fuel = rest + 1 := ⟨fuel - 1, by omega⟩
  cases h with
  | object _ hvalues =>
    rw [plant] at hfuel
    rw [plant, positionsFrom_push, Content.object_targets,
      positionsFrom_plantMembers _ _ _ hvalues (Nat.lt_succ_iff.1 hfuel)]
    rfl
  | array hvalues =>
    rw [plant] at hfuel
    rw [plant, positionsFrom_push, Content.array_targets,
      positionsFrom_plantItems _ _ _ hvalues (Nat.lt_succ_iff.1 hfuel)]
    rfl
  | scalar s columns position =>
    rw [plant, positionsFrom_push]
    rfl

theorem positionsFrom_plantMembers (cells added : Array Cell) (root : Nat)
    {members : List (String × Source)} (h : ∀ m ∈ members, m.2.NamesDiffer) {fuel : Nat}
    (hfuel : (plantMembers cells members).1.size ≤ fuel) :
    ((plantMembers cells members).2.map (·.2)).flatMap
        (positionsFrom ⟨(plantMembers cells members).1 ++ added, root⟩ fuel) =
      Source.memberPositions members := by
  match members with
  | [] => rfl
  | (name, value) :: members =>
    have hvalue : value.NamesDiffer := h _ List.mem_cons_self
    have hrest : ∀ m ∈ members, m.2.NamesDiffer := fun m hm => h m (List.mem_cons_of_mem _ hm)
    obtain ⟨-, -, hlast⟩ := plant_forest cells value hvalue
    obtain ⟨⟨more, hmore⟩, -, -⟩ := plantMembers_forest (plant cells value).1 members hrest
    rw [plantMembers] at hfuel ⊢
    have hsize : (plant cells value).1.size ≤ fuel := by
      rw [hmore, Array.size_append] at hfuel
      omega
    rw [List.map_cons, List.flatMap_cons, positionsFrom_plantMembers _ _ _ hrest hfuel, hmore,
      Array.append_assoc, positionsFrom_plant _ _ _ hvalue (by omega)]
    rfl

theorem positionsFrom_plantItems (cells added : Array Cell) (root : Nat)
    {items : List Source} (h : ∀ v ∈ items, v.NamesDiffer) {fuel : Nat}
    (hfuel : (plantItems cells items).1.size ≤ fuel) :
    (plantItems cells items).2.flatMap
        (positionsFrom ⟨(plantItems cells items).1 ++ added, root⟩ fuel) =
      Source.itemPositions items := by
  match items with
  | [] => rfl
  | value :: items =>
    have hvalue : value.NamesDiffer := h _ List.mem_cons_self
    have hrest : ∀ v ∈ items, v.NamesDiffer := fun v hv => h v (List.mem_cons_of_mem _ hv)
    obtain ⟨-, -, hlast⟩ := plant_forest cells value hvalue
    obtain ⟨⟨more, hmore⟩, -⟩ := plantItems_forest (plant cells value).1 items hrest
    rw [plantItems] at hfuel ⊢
    have hsize : (plant cells value).1.size ≤ fuel := by
      rw [hmore, Array.size_append] at hfuel
      omega
    rw [List.flatMap_cons, positionsFrom_plantItems _ _ _ hrest hfuel, hmore, Array.append_assoc,
      positionsFrom_plant _ _ _ hvalue (by omega)]
    rfl

end

/-- The cells of a text that nothing has changed begin where the values of the text do. -/
theorem map_positionOf_order {s : Source} (h : s.NamesDiffer) :
    (ofSource s).order.map (ofSource s).positionOf = s.positions := by
  obtain ⟨-, -, hlast⟩ := plant_forest #[] s h
  have hfuel : (plant #[] s).2 < (plant #[] s).1.size := by omega
  have hplaces := positionsFrom_plant #[] #[] (plant #[] s).2 h hfuel
  rw [Array.append_empty] at hplaces
  rw [order, walk, map_walkFrom]
  exact hplaces

end Draft

/-! ### Freezing loses nothing -/

/-- Whether the value at `path` has the members, the items, the scalar or the value that a cell
names. -/
inductive Content.Becomes (path : Path) : Content → Node → Prop
  | object {members : List (String × Nat)} {frozen : List (String × Node)} :
    frozen.map (·.1) = members.map (·.1) →
      Becomes path (.object members) (.object (.at path) frozen)
  | array {items : List Nat} {frozen : List Node} :
    frozen.length = items.length → Becomes path (.array items) (.array (.at path) frozen)
  | scalar (s : Scalar) : Becomes path (.scalar s) (.scalar (.at path) s)
  | kept {v : Node} : v.path = path → Becomes path (.imported v) v
  | moved {v : Node} : v.path ≠ path → Becomes path (.imported v) (v.copiedTo path)

namespace Draft

variable {d : Draft} {n id last : Nat} {keys more : List Key}

/-- What stands where keys lead to a cell has all that the cell names. -/
theorem IsTree.at?_freeze_becomes (h : d.IsTree n) (document : String) {c : Content}
    (hleads : d.Leads d.root keys id) (hc : d.content? id = some c) :
    ∃ v, (d.freeze document).at? keys = some v ∧ c.Becomes ⟨document, keys⟩ v := by
  obtain ⟨fuel, -, hat⟩ := h.at?_freeze hleads document
  refine ⟨_, hat, ?_⟩
  rcases c with members | items | s | v
  · rw [h.freezeFrom_object hc]
    exact .object (by simp [Function.comp_def])
  · rw [freezeFrom_array hc]
    exact .array (by simp)
  · rw [freezeFrom_scalar hc]
    exact .scalar s
  · rw [freezeFrom_imported hc]
    split
    · exact .kept ‹_›
    · exact .moved ‹_›

/-! ### Orderly drafts -/

/-- Whether the cells that can be reached are found once each, containers first, sit in one slot
each and lose nothing in the finished document, and no object has two members of one name. -/
structure IsOrderly (d : Draft) : Prop where
  order_nodup : d.order.Nodup
  mem_order_iff : ∀ id, id ∈ d.order ↔ ∃ keys, d.Leads d.root keys id
  container_first : ∀ {id more last}, id ∈ d.order → d.Leads id more last → more ≠ [] →
    [id, last].Sublist d.order
  root_free : d.slot? d.root = none ∧ ∀ owner, d.root ∉ (d.entries owner).map (·.2)
  one_slot : ∀ id ∈ d.order, id ≠ d.root → ∃ s, d.slot? id = some s ∧ s.owner ∈ d.order ∧
    ((d.entries s.owner).filter fun e => e.2 = id) = [(s.key, id)] ∧
      ∀ owner ≠ s.owner, id ∉ (d.entries owner).map (·.2)
  names_nodup : ∀ {id members}, d.content? id = some (.object members) → (members.map (·.1)).Nodup
  becomes : ∀ (document : String) {keys id c}, d.Leads d.root keys id → d.content? id = some c →
    ∃ v, (d.freeze document).at? keys = some v ∧ c.Becomes ⟨document, keys⟩ v

/-- Of the entries of a container, one alone names a cell that is in it. -/
theorem IsTree.filter_entries (h : d.IsTree n) {owner : Nat} {key : Key}
    (he : (key, id) ∈ d.entries owner) :
    ((d.entries owner).filter fun e => e.2 = id) = [(key, id)] := by
  obtain ⟨before, after, heq⟩ := List.append_of_mem he
  have hnodup := h.targets_nodup owner
  rw [heq, List.map_append, List.map_cons, List.nodup_append, List.nodup_cons] at hnodup
  obtain ⟨-, ⟨hafter, -⟩, hbefore⟩ := hnodup
  have hnone : ∀ {es : List (Key × Nat)}, (∀ e ∈ es, e.2 ≠ id) →
      es.filter (fun e => e.2 = id) = [] :=
    fun hes => List.filter_eq_nil_iff.2 fun e he => by simpa using hes e he
  rw [heq, List.filter_append, List.filter_cons_of_pos (by simp), hnone, hnone]
  · rfl
  · exact fun e he heq => hafter (List.mem_map.2 ⟨e, he, heq⟩)
  · exact fun e he => hbefore _ (List.mem_map_of_mem he) _ List.mem_cons_self

theorem IsTree.isOrderly (h : d.IsTree n) : d.IsOrderly where
  order_nodup := h.order_nodup
  mem_order_iff _ := h.mem_order_iff
  container_first hid hleads hne := h.sublist_order hid hleads hne
  root_free := by
    have hfree : ∀ owner, d.root ∉ (d.entries owner).map (·.2) := by
      intro owner hmem
      obtain ⟨e, he, heq⟩ := List.mem_map.1 hmem
      exact h.ne_root he heq
    refine ⟨?_, hfree⟩
    rcases hs : d.slot? d.root with _ | s
    · rfl
    · exact absurd (List.mem_map_of_mem (mem_entries_of_slot? hs)) (hfree s.owner)
  one_slot := by
    intro id hid hne
    obtain ⟨keys, hkeys⟩ := h.mem_order_iff.1 hid
    rcases keys.eq_nil_or_concat' with rfl | ⟨keys, key, rfl⟩
    · exact absurd (h.leads_target hkeys (.here d.root)) hne
    · obtain ⟨owner, howner, he⟩ := hkeys.exists_owner
      obtain ⟨s, hs, rfl, rfl⟩ := h.slot?_of_mem he
      refine ⟨s, hs, h.mem_order_iff.2 ⟨keys, howner⟩, h.filter_entries he, ?_⟩
      intro other hother hmem
      obtain ⟨e, he', heq⟩ := List.mem_map.1 hmem
      exact hother (h.unique he' he heq).1
  names_nodup hc := h.names_nodup hc
  becomes document _ _ _ hleads hc := h.at?_freeze_becomes document hleads hc

end Draft

namespace Engine

/-- The draft of a text has its values in the order of the text. Every draft of the work on it is
orderly, also where finished values have been added that have no place yet. -/
theorem drafts_stay_orderly {e : Engine} {source : SourceText} {parents : List Document}
    {tree : Source} (hread : readJson source.text = .ok tree) :
    (((Draft.ofSource tree).order.map (Draft.ofSource tree).positionOf).Pairwise
      Position.Before) ∧
    (∀ final, (e.workshop source parents).run e.dialect (.ofSource tree) = .ok final →
      final ∈ e.states source parents tree) ∧
    ∀ s ∈ e.states source parents tree, s.draft.IsOrderly ∧
      ∀ position ns, (s.draft.addAll position ns).1.IsOrderly := by
  refine ⟨?_, fun final hfinal => ?_, fun s hs => ?_⟩
  · rw [Draft.map_positionOf_order (readJson_namesDiffer hread)]
    exact readJson_ordered hread
  · obtain ⟨directives, hdetect, hsolve⟩ := Except.bind_eq_ok_iff.1 hfinal
    obtain rfl := Except.ok.inj hsolve
    exact finalState_mem_states hdetect
  · have htree := states_isTree hread hs
    exact ⟨htree.isOrderly, fun position ns => (htree.addAll position ns).isOrderly⟩

/-- Members are copied from two objects that share names with each other, with the object they are
copied into and with the directive. -/
theorem drafts_stay_orderly_copied :
    let text := "\x7b\"$copyFields\":\"P\",\"X\":1,\"P\":[\x7b\"X\":2,\"Y\":3\x7d," ++
      "\x7b\"Y\":4,\"$copyFields\":\"Q\"\x7d],\"Q\":\x7b\"Z\":5\x7d\x7d"
    let e : Engine := .standard (.midnight ⟨2024, 1, 1⟩)
    ∃ tree, readJson text = .ok tree ∧ 2 < (e.states ⟨"D", text⟩ [] tree).length ∧
      ∀ s ∈ e.states ⟨"D", text⟩ [] tree, s.draft.IsOrderly := by
  intro text e
  have hstates : ((readJson text).toOption.map fun tree =>
      decide (2 < (e.states ⟨"D", text⟩ [] tree).length)) = some true := by
    decide +kernel
  obtain ⟨tree, htree, hlength⟩ := Option.map_eq_some_iff.1 hstates
  have hread := Except.toOption_eq_some_iff.1 htree
  obtain ⟨-, -, horderly⟩ := @drafts_stay_orderly e ⟨"D", text⟩ [] tree hread
  exact ⟨tree, hread, of_decide_eq_true hlength, fun s hs => (horderly s hs).1⟩

end Engine

end DocQuery
