/-
The draft of a text is a tree.

* `Source.NamesDiffer` — no object of a JSON text has two members of one name;
* `readJson_namesDiffer` — texts that are read are such;
* `Draft.Forest` — cells that are trees, with their roots;
* `Draft.isTree_ofSource` — the draft of such a text is a tree.

Design notes: planting a value adds cells behind those that are there, and the cells added are a
forest of their own. Two forests, one behind the other, are a forest again, and a container behind a
forest makes one tree of it.
-/
import DocQuery.Proofs.Draft.Tree
import DocQuery.Proofs.Outcome
import DocQuery.Source.Reader

namespace DocQuery

namespace Source

/-! ### Names -/

/-- Whether the members of every object in a JSON text have different names. -/
inductive NamesDiffer : Source → Prop
  | object {members : List (String × Source)} {position : Position} :
    (members.map (·.1)).Nodup → (∀ m ∈ members, NamesDiffer m.2) →
      NamesDiffer (.object members position)
  | array {items : List Source} {position : Position} :
    (∀ v ∈ items, NamesDiffer v) → NamesDiffer (.array items position)
  | scalar (s : Scalar) (columns : Option (List Nat)) (position : Position) :
    NamesDiffer (.scalar s columns position)

theorem readMemberName_fresh {earlier : List String} {c next : Cursor} {name : String}
    (h : readMemberName earlier c = .ok (name, next)) : name ∉ earlier := by
  rw [readMemberName] at h
  simp only at h
  split at h
  · simp at h
  · obtain ⟨⟨quoted, after⟩, _, h⟩ := Except.bind_eq_ok_iff.1 h
    simp only at h
    split at h
    · simp at h
    · rename_i hfresh
      obtain ⟨⟨_, last⟩, _, h⟩ := Except.bind_eq_ok_iff.1 h
      obtain ⟨rfl, rfl⟩ : quoted.text = name ∧ last = next := by simpa using h
      simpa using hfresh

/-- Whether a reader gives values whose names differ. -/
def ValueReader.NamesDiffer (read : ValueReader) : Prop :=
  ∀ {c v next}, read c = .ok (v, next) → v.NamesDiffer

theorem readMembers_namesDiffer {read : ValueReader} (hread : read.NamesDiffer)
    {start : Position} {fuel : Nat} {earlier : List String} {c next : Cursor}
    {members : List (String × Source)}
    (h : readMembers read start fuel earlier c = .ok (members, next)) :
    (members.map (·.1)).Nodup ∧ (∀ m ∈ members, m.1 ∉ earlier) ∧
      ∀ m ∈ members, m.2.NamesDiffer := by
  induction fuel generalizing earlier c next members with
  | zero =>
    obtain ⟨rfl, _⟩ : [] = members ∧ c = next := by simpa [readMembers] using h
    simp
  | succ fuel ih =>
    rw [readMembers] at h
    obtain ⟨⟨name, afterName⟩, hname, h⟩ := Except.bind_eq_ok_iff.1 h
    obtain ⟨⟨value, afterValue⟩, hvalue, h⟩ := Except.bind_eq_ok_iff.1 h
    obtain ⟨separation, _, h⟩ := Except.bind_eq_ok_iff.1 h
    -- a name is refused if it is among those read so far, and it is one of them from here on
    have hfresh := readMemberName_fresh hname
    have hdiffer : value.NamesDiffer := hread hvalue
    rcases separation with more | done
    · obtain ⟨⟨rest, last⟩, hrest, h⟩ := Except.bind_eq_ok_iff.1 h
      obtain ⟨rfl, _⟩ : (name, value) :: rest = members ∧ last = next := by simpa using h
      obtain ⟨hnodup, hearlier, hvalues⟩ := ih hrest
      refine ⟨?_, ?_, ?_⟩
      · rw [List.map_cons, List.nodup_cons]
        refine ⟨fun hmem => ?_, hnodup⟩
        obtain ⟨m, hm, heq⟩ := List.mem_map.1 hmem
        exact hearlier m hm (by simp [heq])
      · intro m hm
        rcases List.mem_cons.1 hm with rfl | hm
        · exact hfresh
        · exact fun hin => hearlier m hm (List.mem_cons_of_mem _ hin)
      · intro m hm
        rcases List.mem_cons.1 hm with rfl | hm
        · exact hdiffer
        · exact hvalues m hm
    · obtain ⟨rfl, _⟩ : [(name, value)] = members ∧ done = next := by simpa using h
      simp [hfresh, hdiffer]

theorem readItems_namesDiffer {read : ValueReader} (hread : read.NamesDiffer)
    {start : Position} {fuel : Nat} {c next : Cursor} {items : List Source}
    (h : readItems read start fuel c = .ok (items, next)) : ∀ v ∈ items, v.NamesDiffer := by
  induction fuel generalizing c next items with
  | zero =>
    obtain ⟨rfl, _⟩ : [] = items ∧ c = next := by simpa [readItems] using h
    simp
  | succ fuel ih =>
    rw [readItems] at h
    obtain ⟨⟨value, afterValue⟩, hvalue, h⟩ := Except.bind_eq_ok_iff.1 h
    obtain ⟨separation, _, h⟩ := Except.bind_eq_ok_iff.1 h
    have hdiffer : value.NamesDiffer := hread hvalue
    rcases separation with more | done
    · obtain ⟨⟨rest, last⟩, hrest, h⟩ := Except.bind_eq_ok_iff.1 h
      obtain ⟨rfl, _⟩ : value :: rest = items ∧ last = next := by simpa using h
      intro v hv
      rcases List.mem_cons.1 hv with rfl | hv
      · exact hdiffer
      · exact ih hrest v hv
    · obtain ⟨rfl, _⟩ : [value] = items ∧ done = next := by simpa using h
      simpa using hdiffer

theorem readObject_namesDiffer {read : ValueReader} (hread : read.NamesDiffer) :
    ValueReader.NamesDiffer (readObject read) := by
  intro c v next h
  rw [readObject] at h
  simp only at h
  split at h
  · obtain ⟨rfl, _⟩ : .object [] c.position = v ∧ _ := by simpa using h
    exact .object (by simp) (by simp)
  · obtain ⟨⟨members, last⟩, hmembers, h⟩ := Except.bind_eq_ok_iff.1 h
    obtain ⟨rfl, _⟩ : .object members c.position = v ∧ last = next := by simpa using h
    obtain ⟨hnodup, _, hvalues⟩ := readMembers_namesDiffer hread hmembers
    exact .object hnodup hvalues

theorem readArray_namesDiffer {read : ValueReader} (hread : read.NamesDiffer) :
    ValueReader.NamesDiffer (readArray read) := by
  intro c v next h
  rw [readArray] at h
  simp only at h
  split at h
  · obtain ⟨rfl, _⟩ : .array [] c.position = v ∧ _ := by simpa using h
    exact .array (by simp)
  · obtain ⟨⟨items, last⟩, hitems, h⟩ := Except.bind_eq_ok_iff.1 h
    obtain ⟨rfl, _⟩ : .array items c.position = v ∧ last = next := by simpa using h
    exact .array (readItems_namesDiffer hread hitems)

theorem readScalar_namesDiffer (first : Char) : ValueReader.NamesDiffer (readScalar first) := by
  -- a text, a number or a word, each with a reader of its own
  intro c v next h
  rw [readScalar] at h
  split at h
  · rw [readText] at h
    obtain ⟨⟨quoted, after⟩, _, h⟩ := Except.bind_eq_ok_iff.1 h
    obtain ⟨rfl, _⟩ := Prod.mk.injEq .. ▸ Except.ok.inj h
    exact .scalar ..
  · split at h
    · rw [readNumber] at h
      obtain ⟨⟨spelling, after⟩, _, h⟩ := Except.bind_eq_ok_iff.1 h
      simp only at h
      split at h
      · obtain ⟨rfl, _⟩ := Prod.mk.injEq .. ▸ Except.ok.inj h
        exact .scalar ..
      · simp at h
    · split at h
      · rw [readWord] at h
        obtain ⟨⟨word, after⟩, _, h⟩ := Except.bind_eq_ok_iff.1 h
        simp only at h
        split at h
        · obtain ⟨rfl, _⟩ := Prod.mk.injEq .. ▸ Except.ok.inj h
          exact .scalar ..
        · simp at h
      · simp at h

theorem readValue_namesDiffer (levels : Nat) : ValueReader.NamesDiffer (readValue levels) := by
  induction levels with
  | zero =>
    intro c v next h
    rw [readValue.eq_def] at h
    simp only at h
    split at h
    · simp at h
    · split at h
      · simp at h
      · exact readScalar_namesDiffer _ h
  | succ levels ih =>
    intro c v next h
    rw [readValue.eq_def] at h
    simp only at h
    split at h
    · simp at h
    · split at h
      · split at h
        · exact readObject_namesDiffer ih h
        · exact readArray_namesDiffer ih h
      · exact readScalar_namesDiffer _ h

end Source

/-- The objects of a text that is read have no two members of one name. -/
theorem readJson_namesDiffer {text : String} {source : Source} (h : readJson text = .ok source) :
    source.NamesDiffer := by
  rw [readJson] at h
  obtain ⟨⟨value, next⟩, hvalue, h⟩ := Except.bind_eq_ok_iff.1 h
  simp only at h
  split at h
  · obtain rfl := Except.ok.inj h
    exact Source.readValue_namesDiffer _ hvalue
  · simp at h

/-! ### Containers -/

theorem Content.object_targets (members : List (String × Nat)) :
    (Content.object members).entries.map (·.2) = members.map (·.2) := by
  simp [Content.entries]

theorem Content.object_keys_nodup {members : List (String × Nat)}
    (h : (members.map (·.1)).Nodup) : ((Content.object members).entries.map (·.1)).Nodup := by
  have hkeys : (Content.object members).entries.map (·.1) =
      (members.map (·.1)).map Key.member := by
    simp [Content.entries]
  rw [hkeys]
  exact h.map fun _ _ => Key.member.inj

theorem Content.array_targets (items : List Nat) :
    (Content.array items).entries.map (·.2) = items := by
  simp [Content.entries, Function.comp_def]

theorem Content.array_keys_nodup (items : List Nat) :
    ((Content.array items).entries.map (·.1)).Nodup := by
  have hkeys : (Content.array items).entries.map (·.1) =
      (List.range items.length).map Key.item := by
    rw [List.range_eq_range', ← List.zipIdx_map_snd 0 items, Content.entries, List.map_map,
      List.map_map]
    rfl
  rw [hkeys]
  exact List.nodup_range.map fun _ _ => Key.item.inj

namespace Draft

/-! ### Forests -/

/-- The cells that one of several cells names. -/
def entriesOf (cells : Array Cell) (id : Nat) : List (Key × Nat) :=
  entries ⟨cells, 0⟩ id

theorem entriesOf_append {cells added : Array Cell} {id : Nat} (h : id < cells.size) :
    entriesOf (cells ++ added) id = entriesOf cells id := by
  simp only [entriesOf, entries, content?]
  rw [Array.getElem?_append_left h]

theorem entriesOf_eq_nil {cells : Array Cell} {id : Nat} (h : cells.size ≤ id) :
    entriesOf cells id = [] := by
  simp only [entriesOf, entries, content?]
  rw [Array.getElem?_eq_none h]
  rfl

theorem entriesOf_push (cells : Array Cell) (c : Cell) :
    entriesOf (cells.push c) cells.size = c.content.entries := by
  simp [entriesOf, entries, content?]

/-- Whether the cells behind the first `first` are trees with the given roots. -/
structure Forest (first : Nat) (cells : Array Cell) (roots : List Nat) : Prop where
  child : ∀ {owner e}, first ≤ owner → e ∈ entriesOf cells owner → first ≤ e.2 ∧ e.2 < owner
  keys_nodup : ∀ {owner}, first ≤ owner → ((entriesOf cells owner).map (·.1)).Nodup
  unique : ∀ {a b e e'}, first ≤ a → first ≤ b → e ∈ entriesOf cells a → e' ∈ entriesOf cells b →
    e.2 = e'.2 → a = b ∧ e = e'
  root : ∀ {r}, r ∈ roots → first ≤ r ∧ r < cells.size
  free : ∀ {r owner e}, r ∈ roots → first ≤ owner → e ∈ entriesOf cells owner → e.2 ≠ r
  roots_nodup : roots.Nodup

namespace Forest

variable {first : Nat} {cells added : Array Cell} {roots more : List Nat}

theorem nil (cells : Array Cell) : Forest cells.size cells [] where
  child h he := by simp [entriesOf_eq_nil h] at he
  keys_nodup h := by simp [entriesOf_eq_nil h]
  unique h _ he := by simp [entriesOf_eq_nil h] at he
  root hr := by simp at hr
  free hr := by simp at hr
  roots_nodup := List.nodup_nil

theorem owner_lt {owner : Nat} {e : Key × Nat} (he : e ∈ entriesOf cells owner) :
    owner < cells.size :=
  lt_size_of_mem_entries he

/-- A forest behind another one makes one forest. -/
theorem append (h : Forest first cells roots) (hfirst : first ≤ cells.size)
    (h' : Forest cells.size (cells ++ added) more) :
    Forest first (cells ++ added) (roots ++ more) := by
  -- an entry lies with its owner on one side of the border between the two
  have hside : ∀ {owner e}, first ≤ owner → e ∈ entriesOf (cells ++ added) owner →
      (owner < cells.size ∧ e ∈ entriesOf cells owner ∧ e.2 < cells.size) ∨
        (cells.size ≤ owner ∧ cells.size ≤ e.2) := by
    intro owner e howner he
    rcases Nat.lt_or_ge owner cells.size with hlt | hge
    · rw [entriesOf_append hlt] at he
      have hchild := h.child howner he
      exact .inl ⟨hlt, he, by omega⟩
    · exact .inr ⟨hge, (h'.child hge he).1⟩
  constructor
  case child =>
    intro owner e howner he
    rcases hside howner he with ⟨_, he', _⟩ | ⟨hge, _⟩
    · exact h.child howner he'
    · have hchild := h'.child hge he
      omega
  case keys_nodup =>
    intro owner howner
    rcases Nat.lt_or_ge owner cells.size with hlt | hge
    · rw [entriesOf_append hlt]
      exact h.keys_nodup howner
    · exact h'.keys_nodup hge
  case unique =>
    intro a b e e' ha hb he he' heq
    rcases hside ha he with ⟨_, hleft, hlow⟩ | ⟨hga, hhigh⟩
    · rcases hside hb he' with ⟨_, hleft', _⟩ | ⟨_, hhigh'⟩
      · exact h.unique ha hb hleft hleft' heq
      · omega
    · rcases hside hb he' with ⟨_, _, hlow'⟩ | ⟨hgb, _⟩
      · omega
      · exact h'.unique hga hgb he he' heq
  case root =>
    intro r hr
    rw [Array.size_append]
    rcases List.mem_append.1 hr with hr | hr
    · have := h.root hr
      omega
    · have := h'.root hr
      rw [Array.size_append] at this
      omega
  case free =>
    intro r owner e hr howner he
    rcases List.mem_append.1 hr with hr | hr
    · rcases hside howner he with ⟨_, he', _⟩ | ⟨_, hhigh⟩
      · exact h.free hr howner he'
      · have := (h.root hr).2
        omega
    · rcases hside howner he with ⟨_, _, hlow⟩ | ⟨hge, _⟩
      · have := (h'.root hr).1
        omega
      · exact h'.free hr hge he
  case roots_nodup =>
    rw [List.nodup_append]
    refine ⟨h.roots_nodup, h'.roots_nodup, fun r hr s hs heq => ?_⟩
    have hlow := (h.root hr).2
    have hhigh := (h'.root hs).1
    omega

/-- A container of the roots makes one tree of a forest. -/
theorem push (h : Forest first cells roots) (hfirst : first ≤ cells.size) {c : Cell}
    (hroots : c.content.entries.map (·.2) = roots) (hkeys : (c.content.entries.map (·.1)).Nodup) :
    Forest first (cells.push c) [cells.size] := by
  have htop := entriesOf_push cells c
  have hroot : ∀ {e}, e ∈ c.content.entries → e.2 ∈ roots := by
    intro e he
    rw [← hroots]
    exact List.mem_map_of_mem he
  have hside : ∀ {owner e}, e ∈ entriesOf (cells.push c) owner →
      e ∈ entriesOf cells owner ∨ owner = cells.size ∧ e ∈ c.content.entries := by
    intro owner e he
    have hlt := owner_lt he
    rw [Array.size_push] at hlt
    rcases Nat.lt_or_ge owner cells.size with hlt | hge
    · rw [← Array.append_singleton, entriesOf_append hlt] at he
      exact .inl he
    · obtain rfl : owner = cells.size := by omega
      rw [htop] at he
      exact .inr ⟨rfl, he⟩
  constructor
  case child =>
    intro owner e howner he
    rcases hside he with hold | ⟨rfl, hnew⟩
    · exact h.child howner hold
    · exact h.root (hroot hnew)
  case keys_nodup =>
    intro owner howner
    rcases Nat.lt_or_ge owner cells.size with hlt | hge
    · rw [← Array.append_singleton, entriesOf_append hlt]
      exact h.keys_nodup howner
    · rcases Nat.lt_or_ge cells.size owner with hgt | hle
      · rw [entriesOf_eq_nil (by rw [Array.size_push]; omega)]
        simp
      · obtain rfl : owner = cells.size := by omega
        rw [htop]
        exact hkeys
  case unique =>
    intro a b e e' ha hb he he' heq
    rcases hside he with hold | ⟨rfl, hnew⟩
    · rcases hside he' with hold' | ⟨rfl, hnew'⟩
      · exact h.unique ha hb hold hold' heq
      · exact absurd heq (h.free (hroot hnew') ha hold)
    · rcases hside he' with hold' | ⟨rfl, hnew'⟩
      · exact absurd heq.symm (h.free (hroot hnew) hb hold')
      · refine ⟨rfl, ?_⟩
        have hnodup : (c.content.entries.map (·.2)).Nodup := hroots ▸ h.roots_nodup
        exact List.inj_on_of_nodup_map hnodup hnew hnew' heq
  case root =>
    intro r hr
    obtain rfl := List.mem_singleton.1 hr
    rw [Array.size_push]
    omega
  case free =>
    intro r owner e hr howner he
    obtain rfl := List.mem_singleton.1 hr
    rcases hside he with hold | ⟨rfl, hnew⟩
    · have := (h.child howner hold).2
      have := owner_lt hold
      omega
    · have := (h.root (hroot hnew)).2
      omega
  case roots_nodup =>
    exact List.nodup_singleton _

end Forest

/-! ### Planting -/

mutual

/-- The cells of a value are a tree behind those before them. -/
theorem plant_forest (cells : Array Cell) (s : Source) (h : s.NamesDiffer) :
    (∃ added, (plant cells s).1 = cells ++ added) ∧
      Forest cells.size (plant cells s).1 [(plant cells s).2] ∧
        (plant cells s).2 + 1 = (plant cells s).1.size := by
  cases h with
  | @object members position hnames hvalues =>
    obtain ⟨⟨added, hadded⟩, hforest, hplanted⟩ := plantMembers_forest cells members hvalues
    rcases hm : plantMembers cells members with ⟨grown, planted⟩
    rw [hm] at hadded hforest hplanted
    obtain rfl : grown = cells ++ added := hadded
    rw [plant, hm]
    refine ⟨⟨added.push _, Array.push_append⟩, ?_, (Array.size_push ..).symm⟩
    refine hforest.push ?_ (Content.object_targets _) (Content.object_keys_nodup ?_)
    · rw [Array.size_append]
      omega
    · rw [hplanted]
      exact hnames
  | @array items position hvalues =>
    obtain ⟨⟨added, hadded⟩, hforest⟩ := plantItems_forest cells items hvalues
    rcases hm : plantItems cells items with ⟨grown, planted⟩
    rw [hm] at hadded hforest
    obtain rfl : grown = cells ++ added := hadded
    rw [plant, hm]
    refine ⟨⟨added.push _, Array.push_append⟩, ?_, (Array.size_push ..).symm⟩
    refine hforest.push ?_ (Content.array_targets _) (Content.array_keys_nodup _)
    rw [Array.size_append]
    omega
  | scalar s columns position =>
    rw [plant]
    refine ⟨⟨#[_], Array.append_singleton.symm⟩, ?_, ?_⟩
    · exact (Forest.nil cells).push (Nat.le_refl _) rfl List.nodup_nil
    · rw [Array.size_push]

/-- The cells of members are a forest behind those before them. -/
theorem plantMembers_forest (cells : Array Cell) (members : List (String × Source))
    (h : ∀ m ∈ members, m.2.NamesDiffer) :
    (∃ added, (plantMembers cells members).1 = cells ++ added) ∧
      Forest cells.size (plantMembers cells members).1
        ((plantMembers cells members).2.map (·.2)) ∧
        (plantMembers cells members).2.map (·.1) = members.map (·.1) := by
  match members with
  | [] => exact ⟨⟨#[], (Array.append_empty).symm⟩, .nil cells, rfl⟩
  | (name, value) :: members =>
    obtain ⟨⟨added, hadded⟩, htree, _⟩ := plant_forest cells value (h _ List.mem_cons_self)
    obtain ⟨⟨more, hmore⟩, hforest, hnames⟩ := plantMembers_forest (plant cells value).1 members
      fun m hm => h m (List.mem_cons_of_mem _ hm)
    rw [plantMembers]
    refine ⟨⟨added ++ more, ?_⟩, ?_, ?_⟩
    · rw [hmore, hadded, Array.append_assoc]
    · rw [hmore] at hforest ⊢
      refine htree.append ?_ hforest
      rw [hadded, Array.size_append]
      omega
    · rw [List.map_cons, hnames, List.map_cons]

/-- The cells of items are a forest behind those before them. -/
theorem plantItems_forest (cells : Array Cell) (items : List Source)
    (h : ∀ v ∈ items, v.NamesDiffer) :
    (∃ added, (plantItems cells items).1 = cells ++ added) ∧
      Forest cells.size (plantItems cells items).1 (plantItems cells items).2 := by
  match items with
  | [] => exact ⟨⟨#[], (Array.append_empty).symm⟩, .nil cells⟩
  | value :: items =>
    obtain ⟨⟨added, hadded⟩, htree, _⟩ := plant_forest cells value (h _ List.mem_cons_self)
    obtain ⟨⟨more, hmore⟩, hforest⟩ := plantItems_forest (plant cells value).1 items
      fun v hv => h v (List.mem_cons_of_mem _ hv)
    rw [plantItems]
    refine ⟨⟨added ++ more, ?_⟩, ?_⟩
    · rw [hmore, hadded, Array.append_assoc]
    · rw [hmore] at hforest ⊢
      refine htree.append ?_ hforest
      rw [hadded, Array.size_append]
      omega

end

/-- The draft of a text whose names differ is a tree. -/
theorem isTree_ofSource {source : Source} (h : source.NamesDiffer) :
    (ofSource source).IsTree (ofSource source).cells.size := by
  obtain ⟨_, hforest, hroot⟩ := plant_forest #[] source h
  have hentries : ∀ owner, (ofSource source).entries owner =
      entriesOf (plant #[] source).1 owner := fun _ => rfl
  constructor
  case root_lt =>
    show (plant #[] source).2 < (plant #[] source).1.size
    omega
  case size_le => exact Nat.le_refl _
  case leaf =>
    intro id c hid hc
    rw [content?, Array.getElem?_eq_none hid] at hc
    simp at hc
  case child =>
    intro owner e he
    exact .inl (hforest.child (Nat.zero_le _) he).2
  case ne_root =>
    intro owner e he
    exact hforest.free (List.mem_singleton_self _) (Nat.zero_le _) he
  case keys_nodup =>
    intro owner
    exact hforest.keys_nodup (Nat.zero_le _)
  case unique =>
    intro a b e e' he he' heq
    exact hforest.unique (Nat.zero_le _) (Nat.zero_le _) he he' heq

end Draft

end DocQuery
