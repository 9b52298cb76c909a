/-
The structure of JSON texts.

* `Outline` — a JSON text without white space and places, strings by what they mean;
* `Outline.Fits` — no object has two members of one name, and containers nest only so deep;
* `Outline.placed` — the value of that structure with every part at its place;
* `Source.outline` — the structure of a text that has been read;
* `Draft.freeze_ofSource` — a text that nothing has changed freezes to the value of its structure.

Design notes: a text is planted with containers behind what they hold, so going down from a
container the numbers of cells get smaller. They are the measure of the fuel that freezing needs.
-/
import DocQuery.Proofs.Draft.Frozen
import DocQuery.Proofs.Draft.Planting

namespace DocQuery

/-- The structure of a JSON text. -/
inductive Outline where
  | object (members : List (String × Outline))
  | array (items : List Outline)
  | scalar (scalar : Scalar)

namespace Outline

/-- Whether no object has two members of one name, and containers nest at most `levels` deep. -/
inductive Fits : Nat → Outline → Prop
  | object {levels : Nat} {members : List (String × Outline)} :
    (members.map (·.1)).Nodup → (∀ m ∈ members, Fits levels m.2) →
      Fits (levels + 1) (.object members)
  | array {levels : Nat} {items : List Outline} :
    (∀ o ∈ items, Fits levels o) → Fits (levels + 1) (.array items)
  | scalar (levels : Nat) (s : Scalar) : Fits levels (.scalar s)

mutual

/-- The value of this structure at the place `path`. -/
def placed (path : Path) : Outline → Node
  | .object members => .object (.at path) (placedMembers path members)
  | .array items => .array (.at path) (placedItems path 0 items)
  | .scalar s => .scalar (.at path) s

/-- The values of members of an object at `path`. -/
def placedMembers (path : Path) : List (String × Outline) → List (String × Node)
  | [] => []
  | (name, o) :: members => (name, o.placed (path.member name)) :: placedMembers path members

/-- The values of items of an array at `path`, of which the first is the item `index`. -/
def placedItems (path : Path) (index : Nat) : List Outline → List Node
  | [] => []
  | o :: items => o.placed (path.item index) :: placedItems path (index + 1) items

end

mutual

/-- The value shows the structure. -/
theorem placed_injective {path : Path} {o o' : Outline} (h : o.placed path = o'.placed path) :
    o = o' := by
  cases o with
  | object members =>
    cases o' with
    | object members' =>
      rw [placed, placed] at h
      rw [placedMembers_injective (Node.object.inj h).2]
    | array items' => simp [placed] at h
    | scalar s' => simp [placed] at h
  | array items =>
    cases o' with
    | object members' => simp [placed] at h
    | array items' =>
      rw [placed, placed] at h
      rw [placedItems_injective (Node.array.inj h).2]
    | scalar s' => simp [placed] at h
  | scalar s =>
    cases o' with
    | object members' => simp [placed] at h
    | array items' => simp [placed] at h
    | scalar s' =>
      rw [placed, placed] at h
      rw [(Node.scalar.inj h).2]

theorem placedMembers_injective {path : Path} {members members' : List (String × Outline)}
    (h : placedMembers path members = placedMembers path members') : members = members' := by
  match members, members' with
  | [], [] => rfl
  | [], (name', o') :: members' => simp [placedMembers] at h
  | (name, o) :: members, [] => simp [placedMembers] at h
  | (name, o) :: members, (name', o') :: members' =>
    rw [placedMembers, placedMembers] at h
    obtain ⟨hfirst, hrest⟩ := List.cons.inj h
    obtain ⟨rfl, hvalue⟩ := Prod.mk.inj hfirst
    rw [placed_injective hvalue, placedMembers_injective hrest]

theorem placedItems_injective {path : Path} {index : Nat} {items items' : List Outline}
    (h : placedItems path index items = placedItems path index items') : items = items' := by
  match items, items' with
  | [], [] => rfl
  | [], o' :: items' => simp [placedItems] at h
  | o :: items, [] => simp [placedItems] at h
  | o :: items, o' :: items' =>
    rw [placedItems, placedItems] at h
    obtain ⟨hfirst, hrest⟩ := List.cons.inj h
    rw [placed_injective hfirst, placedItems_injective hrest]

end

end Outline

namespace Source

mutual

/-- The structure of a text that has been read. -/
def outline : Source → Outline
  | .object members _ => .object (memberOutlines members)
  | .array items _ => .array (itemOutlines items)
  | .scalar s _ _ => .scalar s

/-- The structures of members. -/
def memberOutlines : List (String × Source) → List (String × Outline)
  | [] => []
  | (name, value) :: members => (name, value.outline) :: memberOutlines members

/-- The structures of items. -/
def itemOutlines : List Source → List Outline
  | [] => []
  | value :: items => value.outline :: itemOutlines items

end

theorem memberOutlines_eq (members : List (String × Source)) :
    memberOutlines members = members.map fun m => (m.1, m.2.outline) := by
  induction members with
  | nil => rfl
  | cons m members ih => rw [memberOutlines, ih, List.map_cons]

theorem itemOutlines_eq (items : List Source) : itemOutlines items = items.map outline := by
  induction items with
  | nil => rfl
  | cons value items ih => rw [itemOutlines, ih, List.map_cons]

end Source

namespace Draft

/-! ### Freezing a text that has been planted -/

theorem content?_push_append (cells added : Array Cell) (root : Nat) (c : Cell) :
    content? ⟨cells.push c ++ added, root⟩ cells.size = some c.content := by
  rw [content?, Array.getElem?_append_left (by simp), Array.getElem?_push_size]
  rfl

theorem push_append (cells added : Array Cell) (c : Cell) :
    cells.push c ++ added = cells ++ (#[c] ++ added) := by
  rw [← Array.append_assoc, Array.append_singleton]

mutual

theorem freezeFrom_plant (cells added : Array Cell) (root : Nat) (path : Path) {s : Source}
    (h : s.NamesDiffer) {fuel : Nat} (hfuel : (plant cells s).2 < fuel) :
    freezeFrom ⟨(plant cells s).1 ++ added, root⟩ fuel path (plant cells s).2 =
      s.outline.placed path := by
  obtain ⟨fuel, rfl⟩ : ∃ rest, fuel = rest + 1 := ⟨fuel - 1, by omega⟩
  cases h with
  | @object members position hnames hvalues =>
    obtain ⟨-, -, hplanted⟩ := plantMembers_forest cells members hvalues
    rw [plant] at hfuel
    -- the object is planted behind its members, which stand as they do without it
    have hmembers := freezeFrom_plantMembers cells
      (#[⟨.object (plantMembers cells members).2, position, none⟩] ++ added) root path hvalues
      (Nat.lt_succ_iff.1 hfuel)
    rw [plant, freezeFrom_object (content?_push_append ..) (by rw [hplanted]; exact hnames),
      push_append, hmembers]
    rfl
  | @array items position hvalues =>
    rw [plant] at hfuel
    have hitems := freezeFrom_plantItems cells
      (#[⟨.array (plantItems cells items).2, position, none⟩] ++ added) root path 0 hvalues
      (Nat.lt_succ_iff.1 hfuel)
    rw [plant, freezeFrom_array (content?_push_append ..), push_append, hitems]
    rfl
  | scalar s columns position =>
    rw [plant, freezeFrom_scalar (content?_push_append ..)]
    rfl

theorem freezeFrom_plantMembers (cells added : Array Cell) (root : Nat) (path : Path)
    {members : List (String × Source)} (h : ∀ m ∈ members, m.2.NamesDiffer) {fuel : Nat}
    (hfuel : (plantMembers cells members).1.size ≤ fuel) :
    ((plantMembers cells members).2.map fun m =>
        (m.1, freezeFrom ⟨(plantMembers cells members).1 ++ added, root⟩ fuel
          (path.member m.1) m.2)) =
      Outline.placedMembers path (Source.memberOutlines members) := by
  match members with
  | [] => rfl
  | (name, value) :: members =>
    have hvalue : value.NamesDiffer := h _ List.mem_cons_self
    have hrest : ∀ m ∈ members, m.2.NamesDiffer := fun m hm => h m (List.mem_cons_of_mem _ hm)
    obtain ⟨-, -, hlast⟩ := plant_forest cells value hvalue
    obtain ⟨⟨more, hmore⟩, -, -⟩ := plantMembers_forest (plant cells value).1 members hrest
    rw [plantMembers] at hfuel ⊢
    have hsize : (plant cells value).1.size ≤ fuel := by
      rw [hmore, Array.size_append] at hfuel
      omega
    simp only [List.map_cons]
    rw [freezeFrom_plantMembers _ _ _ _ hrest hfuel, hmore, Array.append_assoc,
      freezeFrom_plant _ _ _ _ hvalue (by omega)]
    rfl

theorem freezeFrom_plantItems (cells added : Array Cell) (root : Nat) (path : Path) (index : Nat)
    {items : List Source} (h : ∀ v ∈ items, v.NamesDiffer) {fuel : Nat}
    (hfuel : (plantItems cells items).1.size ≤ fuel) :
    (((plantItems cells items).2.zipIdx index).map fun i =>
        freezeFrom ⟨(plantItems cells items).1 ++ added, root⟩ fuel (path.item i.2) i.1) =
      Outline.placedItems path index (Source.itemOutlines items) := by
  match items with
  | [] => rfl
  | value :: items =>
    have hvalue : value.NamesDiffer := h _ List.mem_cons_self
    have hrest : ∀ v ∈ items, v.NamesDiffer := fun v hv => h v (List.mem_cons_of_mem _ hv)
    obtain ⟨-, -, hlast⟩ := plant_forest cells value hvalue
    obtain ⟨⟨more, hmore⟩, -⟩ := plantItems_forest (plant cells value).1 items hrest
    rw [plantItems] at hfuel ⊢
    have hsize : (plant cells value).1.size ≤ fuel := by
      rw [hmore, Array.size_append] at hfuel
      omega
    simp only [List.zipIdx_cons, List.map_cons]
    rw [freezeFrom_plantItems _ _ _ _ _ hrest hfuel, hmore, Array.append_assoc,
      freezeFrom_plant _ _ _ _ hvalue (by omega)]
    rfl

end

/-- A text that is planted and not changed freezes to the value of its structure. -/
theorem freeze_ofSource {s : Source} (h : s.NamesDiffer) (document : String) :
    (ofSource s).freeze document = s.outline.placed (.root document) := by
  obtain ⟨-, -, hlast⟩ := plant_forest #[] s h
  have hfuel : (plant #[] s).2 < (plant #[] s).1.size := by omega
  have hfrozen := freezeFrom_plant #[] #[] (plant #[] s).2 (.root document) h hfuel
  rw [Array.append_empty] at hfrozen
  exact hfrozen

end Draft

end DocQuery
