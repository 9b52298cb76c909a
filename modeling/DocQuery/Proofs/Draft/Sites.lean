/-
The values of a text and the cells that they are planted in.

* `Source.sites` — the values of a text in its order, each with its key in the container around it;
* `Source.positions_sites` — they begin where the values of the text do;
* `Draft.SitsAs` — a cell that holds such a value, in a slot of its key;
* `Draft.order_sites` — the cells of a text that nothing has changed are those of its values, in the
  same order.

Design notes: a walk gives the keys that lead to a cell, the last of which is its key in its
container. A value that has been planted keeps its cells when others are added behind them.
-/
import DocQuery.Proofs.Directive.Survival
import DocQuery.Proofs.Source.Outline

namespace DocQuery

/-- A value of a text, and the key that it has in the container around it. -/
abbrev Site := Option Key × Source

namespace Source

mutual

/-- The values in and below a value that has the key `key`, containers before what they hold. -/
def sites (key : Option Key) : Source → List Site
  | .object members position => (key, .object members position) :: memberSites members
  | .array items position => (key, .array items position) :: itemSites 0 items
  | .scalar s columns position => [(key, .scalar s columns position)]

/-- The values in and below members. -/
def memberSites : List (String × Source) → List Site
  | [] => []
  | (name, value) :: members => value.sites (some (.member name)) ++ memberSites members

/-- The values in and below items, of which the first one has the number `index`. -/
def itemSites (index : Nat) : List Source → List Site
  | [] => []
  | value :: items => value.sites (some (.item index)) ++ itemSites (index + 1) items

end

mutual

/-- The values of a text begin one behind the other. -/
theorem positions_sites (key : Option Key) : (s : Source) →
    (s.sites key).map (·.2.position) = s.positions
  | .object members position => by
    rw [sites, List.map_cons, positions_memberSites members]
    rfl
  | .array items position => by
    rw [sites, List.map_cons, positions_itemSites 0 items]
    rfl
  | .scalar s columns position => rfl

theorem positions_memberSites : (members : List (String × Source)) →
    (memberSites members).map (·.2.position) = memberPositions members
  | [] => rfl
  | (name, value) :: members => by
    rw [memberSites, List.map_append, positions_sites _ value, positions_memberSites members]
    rfl

theorem positions_itemSites (index : Nat) : (items : List Source) →
    (itemSites index items).map (·.2.position) = itemPositions items
  | [] => rfl
  | value :: items => by
    rw [itemSites, List.map_append, positions_sites _ value, positions_itemSites _ items]
    rfl

end

end Source

/-- Whether a cell holds what a value is, whatever the numbers of its entries are. -/
inductive Cell.Holds : Cell → Source → Prop
  | object (planted : List (String × Nat)) (members : List (String × Source))
    (position : Position) : Holds ⟨.object planted, position, none⟩ (.object members position)
  | array (planted : List Nat) (items : List Source) (position : Position) :
    Holds ⟨.array planted, position, none⟩ (.array items position)
  | scalar (s : Scalar) (columns : Option (List Nat)) (position : Position) :
    Holds ⟨.scalar s, position, columns⟩ (.scalar s columns position)

namespace Draft

/-- Whether the cell `id` holds the value of a site, in a slot of its key. -/
def SitsAs (d : Draft) (id : Nat) (site : Site) : Prop :=
  (d.slot? id).map Slot.key = site.1 ∧ ∃ c, d.cells[id]? = some c ∧ c.Holds site.2

/-- Whether a cell and the keys that lead to it are those of a site. -/
def LeadsTo (d : Draft) (p : Nat × List Key) (site : Site) : Prop :=
  p.2.getLast? = site.1 ∧ ∃ c, d.cells[p.1]? = some c ∧ c.Holds site.2

/-! ### Planted values -/

/-- A cell that is planted holds its value, and a walk goes on to its entries. -/
theorem walkFrom_push {cells added : Array Cell} {root fuel : Nat} {keys : List Key} {c : Cell}
    {s : Source} {sites : List Site} (hholds : c.Holds s)
    (hentries : List.Forall₂ (LeadsTo ⟨cells ++ (#[c] ++ added), root⟩)
      (c.content.entries.flatMap fun e =>
        walkFrom ⟨cells ++ (#[c] ++ added), root⟩ fuel (keys ++ [e.1]) e.2) sites) :
    List.Forall₂ (LeadsTo ⟨cells.push c ++ added, root⟩)
      (walkFrom ⟨cells.push c ++ added, root⟩ (fuel + 1) keys cells.size)
      ((keys.getLast?, s) :: sites) := by
  rw [walkFrom_succ, entries_of_content? (content?_push_append ..)]
  refine .cons ⟨rfl, c, ?_, hholds⟩ ?_
  · show (cells.push c ++ added)[cells.size]? = some c
    rw [Array.getElem?_append_left (by simp), Array.getElem?_push_size]
  · rw [push_append]
    exact hentries

mutual

/-- A walk of a value that has been planted finds its sites. -/
theorem walkFrom_plant (cells added : Array Cell) (root : Nat) (keys : List Key) {s : Source}
    (h : s.NamesDiffer) {fuel : Nat} (hfuel : (plant cells s).2 < fuel) :
    List.Forall₂ (LeadsTo ⟨(plant cells s).1 ++ added, root⟩)
      (walkFrom ⟨(plant cells s).1 ++ added, root⟩ fuel keys (plant cells s).2)
      (s.sites keys.getLast?) := by
  obtain ⟨fuel, rfl⟩ : ∃ rest, fuel = rest + 1 := ⟨fuel - 1, by omega⟩
  cases h with
  | object _ hvalues =>
    rw [plant] at hfuel ⊢
    exact walkFrom_push (.object ..)
      (walkFrom_plantMembers _ _ _ _ hvalues (Nat.lt_succ_iff.1 hfuel))
  | array hvalues =>
    rw [plant] at hfuel ⊢
    exact walkFrom_push (.array ..)
      (walkFrom_plantItems _ _ _ _ 0 hvalues (Nat.lt_succ_iff.1 hfuel))
  | scalar s columns position =>
    rw [plant]
    exact walkFrom_push (.scalar ..) .nil

theorem walkFrom_plantMembers (cells added : Array Cell) (root : Nat) (keys : List Key)
    {members : List (String × Source)} (h : ∀ m ∈ members, m.2.NamesDiffer) {fuel : Nat}
    (hfuel : (plantMembers cells members).1.size ≤ fuel) :
    List.Forall₂ (LeadsTo ⟨(plantMembers cells members).1 ++ added, root⟩)
      (((plantMembers cells members).2.map fun m => (Key.member m.1, m.2)).flatMap fun e =>
        walkFrom ⟨(plantMembers cells members).1 ++ added, root⟩ fuel (keys ++ [e.1]) e.2)
      (Source.memberSites members) := by
  match members with
  | [] => exact .nil
  | (name, value) :: members =>
    have hvalue : value.NamesDiffer := h _ List.mem_cons_self
    have hrest : ∀ m ∈ members, m.2.NamesDiffer := fun m hm => h m (List.mem_cons_of_mem _ hm)
    obtain ⟨-, -, hlast⟩ := plant_forest cells value hvalue
    obtain ⟨⟨more, hmore⟩, -, -⟩ := plantMembers_forest (plant cells value).1 members hrest
    rw [plantMembers] at hfuel ⊢
    have hsize : (plant cells value).1.size ≤ fuel := by
      rw [hmore, Array.size_append] at hfuel
      omega
    have hmembers := walkFrom_plantMembers (plant cells value).1 added root keys hrest hfuel
    rw [List.map_cons, List.flatMap_cons]
    refine List.rel_append ?_ hmembers
    simp only
    rw [hmore, Array.append_assoc]
    have hfuel' : (plant cells value).2 < fuel := by omega
    have hfirst := walkFrom_plant cells (more ++ added) root (keys ++ [.member name]) hvalue hfuel'
    rwa [List.getLast?_concat] at hfirst

theorem walkFrom_plantItems (cells added : Array Cell) (root : Nat) (keys : List Key)
    (index : Nat) {items : List Source} (h : ∀ v ∈ items, v.NamesDiffer) {fuel : Nat}
    (hfuel : (plantItems cells items).1.size ≤ fuel) :
    List.Forall₂ (LeadsTo ⟨(plantItems cells items).1 ++ added, root⟩)
      ((((plantItems cells items).2.zipIdx index).map fun (id, i) => (Key.item i, id)).flatMap
        fun e => walkFrom ⟨(plantItems cells items).1 ++ added, root⟩ fuel (keys ++ [e.1]) e.2)
      (Source.itemSites index items) := by
  match items with
  | [] => exact .nil
  | value :: items =>
    have hvalue : value.NamesDiffer := h _ List.mem_cons_self
    have hrest : ∀ v ∈ items, v.NamesDiffer := fun v hv => h v (List.mem_cons_of_mem _ hv)
    obtain ⟨-, -, hlast⟩ := plant_forest cells value hvalue
    obtain ⟨⟨more, hmore⟩, -⟩ := plantItems_forest (plant cells value).1 items hrest
    rw [plantItems] at hfuel ⊢
    have hsize : (plant cells value).1.size ≤ fuel := by
      rw [hmore, Array.size_append] at hfuel
      omega
    have hitems := walkFrom_plantItems (plant cells value).1 added root keys (index + 1) hrest hfuel
    rw [List.zipIdx_cons, List.map_cons, List.flatMap_cons]
    refine List.rel_append ?_ hitems
    simp only
    rw [hmore, Array.append_assoc]
    have hfuel' : (plant cells value).2 < fuel := by omega
    have hfirst := walkFrom_plant cells (more ++ added) root (keys ++ [.item index]) hvalue hfuel'
    rwa [List.getLast?_concat] at hfirst

end

/-! ### The cells of a text -/

/-- The key of a cell in its container is the last one of those that lead to it. -/
theorem IsTree.slot?_of_leads {d : Draft} {n id : Nat} {keys : List Key} (h : d.IsTree n)
    (hleads : d.Leads d.root keys id) : (d.slot? id).map Slot.key = keys.getLast? := by
  rcases keys.eq_nil_or_concat' with rfl | ⟨above, key, rfl⟩
  · -- no container names the root
    obtain rfl : id = d.root := h.leads_target hleads (.here d.root)
    cases hs : d.slot? d.root with
    | none => rfl
    | some s => exact absurd rfl (h.ne_root (mem_entries_of_slot? hs))
  · obtain ⟨owner, -, he⟩ := hleads.exists_owner
    obtain ⟨s, hs, -, rfl⟩ := h.slot?_of_mem he
    rw [hs, List.getLast?_concat]
    rfl

/-- The cells of a text that nothing has changed are those of its values, in the same order. -/
theorem order_sites {s : Source} (h : s.NamesDiffer) :
    List.Forall₂ (ofSource s).SitsAs (ofSource s).order (s.sites none) := by
  obtain ⟨-, -, hlast⟩ := plant_forest #[] s h
  have hfuel : (plant #[] s).2 < (plant #[] s).1.size := by omega
  have hsites := walkFrom_plant #[] #[] (plant #[] s).2 [] h hfuel
  rw [Array.append_empty] at hsites
  have htree := isTree_ofSource h
  have hslots : ∀ p ∈ (ofSource s).walk, ((ofSource s).slot? p.1).map Slot.key = p.2.getLast? :=
    fun p hp => htree.slot?_of_leads (htree.mem_walk_iff.1 hp)
  rw [order, List.forall₂_map_left_iff]
  refine ((List.forall₂_and_left _ _).2 ⟨hslots, hsites⟩).imp ?_
  rintro p site ⟨hslot, hlast, hcell⟩
  exact ⟨hslot.trans hlast, hcell⟩

end Draft

end DocQuery
