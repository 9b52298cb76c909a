/-
What a directive writes into a draft.

* `Draft.IsTree.addAll`, `Draft.IsTree.setContent`, `Draft.IsTree.changeContent` — when the changes
  to a draft keep it a tree;
* `Draft.IsTree.spliceMember`, `Draft.IsTree.splice`, `Draft.IsTree.without` — an entry of a tree
  gives way to new cells or to nothing;
* `Draft.write_edits` — whatever becomes of a directive, the draft stays a tree, in which only the
  cell of the directive and its place have changed.

Design notes: every change is described by the contents of the cells afterwards, and what is written
is put together from a few of them.
-/
import Mathlib.Data.List.Range
import DocQuery.Proofs.Draft.Editing

namespace DocQuery

namespace Draft

variable {d : Draft} {n id owner : Nat} {c : Content} {xs : List Directive}

/-! ### The contents after a change -/

theorem content?_setContent (d : Draft) (id : Nat) (c : Content) (other : Nat) :
    (d.setContent id c).content? other =
      if other = id then (d.content? other).map fun _ => c else d.content? other := by
  rw [content?, content?, setContent, Array.getElem?_modify]
  by_cases h : id = other
  · subst h
    simp [Function.comp_def]
  · rw [if_neg h, if_neg (Ne.symm h)]

theorem content?_changeContent (d : Draft) (id : Nat) (change : Content → Content) (other : Nat) :
    (d.changeContent id change).content? other =
      if other = id then (d.content? other).map change else d.content? other := by
  rw [content?, content?, changeContent, Array.getElem?_modify]
  by_cases h : id = other
  · subst h
    simp [Function.comp_def]
  · rw [if_neg h, if_neg (Ne.symm h)]

theorem addAll_eq (d : Draft) (position : Position) (ns : List Node) :
    d.addAll position ns =
      (⟨d.cells ++ (ns.map fun v => ⟨.imported v, position, none⟩).toArray, d.root⟩,
        List.range' d.cells.size ns.length) := by
  induction ns generalizing d with
  | nil => simp [addAll]
  | cons v ns ih => simp [addAll, add, ih, List.range'_succ]

theorem size_addAll (d : Draft) (position : Position) (ns : List Node) :
    (d.addAll position ns).1.cells.size = d.cells.size + ns.length := by
  simp [addAll_eq]

theorem content?_addAll_of_lt {position : Position} {ns : List Node} (h : id < d.cells.size) :
    (d.addAll position ns).1.content? id = d.content? id := by
  rw [addAll_eq, content?, content?]
  simp only
  rw [Array.getElem?_append_left h]

theorem exists_imported_of_addAll {position : Position} {ns : List Node}
    (h : d.cells.size ≤ id) (hc : (d.addAll position ns).1.content? id = some c) :
    ∃ v, c = .imported v := by
  rw [addAll_eq, content?] at hc
  simp only at hc
  rw [Array.getElem?_append_right h] at hc
  obtain ⟨cell, hcell, rfl⟩ := Option.map_eq_some_iff.1 hc
  rw [List.getElem?_toArray, List.getElem?_map] at hcell
  obtain ⟨v, _, rfl⟩ := Option.map_eq_some_iff.1 hcell
  exact ⟨v, rfl⟩

theorem entries_of_content? (h : d.content? id = some c) : d.entries id = c.entries := by
  rw [entries, h]
  rfl

theorem entries_of_none (h : d.content? id = none) : d.entries id = [] := by
  rw [entries, h]
  rfl

theorem entries_changeContent {change : Content → Content} (hc : d.content? id = some c) :
    (d.changeContent id change).entries id = (change c).entries := by
  refine entries_of_content? ?_
  rw [content?_changeContent, if_pos rfl, hc]
  rfl

theorem entries_changeContent_of_ne {change : Content → Content} (h : owner ≠ id) :
    (d.changeContent id change).entries owner = d.entries owner := by
  rw [entries, content?_changeContent, if_neg h]
  rfl

theorem entries_addAll (d : Draft) (position : Position) (ns : List Node) (id : Nat) :
    (d.addAll position ns).1.entries id = d.entries id := by
  rcases Nat.lt_or_ge id d.cells.size with hlt | hge
  · rw [entries, entries, content?_addAll_of_lt hlt]
  · have hnone : d.content? id = none := by
      rw [content?, Array.getElem?_eq_none hge]
      rfl
    rw [entries_of_none hnone]
    rcases hc : (d.addAll position ns).1.content? id with _ | c
    · exact entries_of_none hc
    · obtain ⟨v, rfl⟩ := exists_imported_of_addAll hge hc
      exact entries_of_content? hc

/-- Cells that hold finished values name no other. -/
theorem slot?_addAll (d : Draft) (position : Position) (ns : List Node) (id : Nat) :
    (d.addAll position ns).1.slot? id = d.slot? id := by
  rw [slot?, slot?, addAll_eq]
  simp only [Array.toList_append, List.zipIdx_append, List.findSome?_append]
  refine Option.or_eq_left_of_none ?_
  rw [List.findSome?_eq_none_iff]
  rintro ⟨cell, owner⟩ hmem
  obtain ⟨v, _, rfl⟩ := List.mem_map.1 (List.fst_mem_of_mem_zipIdx hmem)
  rfl

/-! ### Changes that keep a tree -/

namespace IsTree

theorem targets_nodup (h : d.IsTree n) (owner : Nat) : ((d.entries owner).map (·.2)).Nodup :=
  List.Nodup.map_on (fun _ he _ he' heq => (h.unique he he' heq).2)
    (List.Nodup.of_map _ (h.keys_nodup owner))

theorem target_lt (h : d.IsTree n) {e : Key × Nat} (he : e ∈ d.entries owner) :
    e.2 < d.cells.size := by
  have howner := lt_size_of_mem_entries he
  have hchild := h.child he
  omega

/-- A draft stays a tree as long as its cells name the same ones. -/
theorem of_entries_eq {d' : Draft} (h : d.IsTree n) (hroot : d'.root = d.root)
    (hsize : d.cells.size ≤ d'.cells.size)
    (hleaf : ∀ id c, n ≤ id → d'.content? id = some c → ∃ v, c = .imported v)
    (hentries : ∀ owner, d'.entries owner = d.entries owner) : d'.IsTree n where
  root_lt := hroot ▸ h.root_lt
  size_le := Nat.le_trans h.size_le hsize
  leaf {id c} hid hc := hleaf id c hid hc
  child {owner e} he := by
    rw [hentries] at he
    have hchild := h.child he
    omega
  ne_root {owner e} he := by
    rw [hentries] at he
    rw [hroot]
    exact h.ne_root he
  keys_nodup owner := by
    rw [hentries]
    exact h.keys_nodup owner
  unique {a b e e'} he he' heq := by
    rw [hentries] at he he'
    exact h.unique he he' heq

theorem addAll (h : d.IsTree n) (position : Position) (ns : List Node) :
    (d.addAll position ns).1.IsTree n := by
  refine h.of_entries_eq (by rw [addAll_eq]) ?_ ?_ (d.entries_addAll position ns)
  · rw [size_addAll]
    omega
  · intro id c hid hc
    rcases Nat.lt_or_ge id d.cells.size with hlt | hge
    · rw [content?_addAll_of_lt hlt] at hc
      exact h.leaf hid hc
    · exact exists_imported_of_addAll hge hc

/-- A cell that comes from the text and names no other may hold anything of the kind. -/
theorem setContent (h : d.IsTree n) (hid : id < n) (hleaf : d.entries id = [])
    (hc : c.entries = []) : (d.setContent id c).IsTree n := by
  refine h.of_entries_eq rfl ?_ ?_ fun owner => ?_
  · rw [Draft.setContent, Array.size_modify]
  · intro other c' hother hc'
    rw [content?_setContent, if_neg (by omega)] at hc'
    exact h.leaf hother hc'
  · -- neither the old nor the new contents name a cell
    rw [entries, content?_setContent]
    split
    · rename_i heq
      subst heq
      rw [hleaf]
      rcases d.content? owner with _ | _
      · rfl
      · exact hc
    · rfl

/-- A container may name others than before, if these are cells behind the text that no container
names. -/
theorem changeContent (h : d.IsTree n) {change : Content → Content}
    (hc : d.content? owner = some c) (howner : owner < n)
    (hkeys : ((change c).entries.map (·.1)).Nodup) (htargets : ((change c).entries.map (·.2)).Nodup)
    (hfrom : ∀ e ∈ (change c).entries, (∃ key, (key, e.2) ∈ c.entries) ∨
      n ≤ e.2 ∧ e.2 < d.cells.size ∧ ∀ a, ∀ e' ∈ d.entries a, e'.2 ≠ e.2) :
    (d.changeContent owner change).IsTree n := by
  have hsize : (d.changeContent owner change).cells.size = d.cells.size := by
    rw [Draft.changeContent, Array.size_modify]
  have hside : ∀ a, ∀ e ∈ (d.changeContent owner change).entries a,
      (a = owner ∧ e ∈ (change c).entries) ∨ (a ≠ owner ∧ e ∈ d.entries a) := by
    intro a e he
    by_cases ha : a = owner
    · subst ha
      rw [entries_changeContent hc] at he
      exact .inl ⟨rfl, he⟩
    · rw [entries_changeContent_of_ne ha] at he
      exact .inr ⟨ha, he⟩
  have hold : ∀ {key e}, (key, e) ∈ c.entries → (key, e) ∈ d.entries owner := by
    intro key e he
    rwa [entries_of_content? hc]
  -- an entry that is new was named by no container, so it is named by one now
  have hdistinct : ∀ {a e e'}, a ≠ owner → e ∈ (change c).entries → e' ∈ d.entries a →
      e.2 ≠ e'.2 := by
    intro a e e' ha he he' heq
    rcases hfrom e he with ⟨key, hkey⟩ | ⟨_, _, hfree⟩
    · exact ha (h.unique (hold hkey) he' heq).1.symm
    · exact hfree a e' he' heq.symm
  constructor
  case root_lt => exact h.root_lt
  case size_le =>
    rw [hsize]
    exact h.size_le
  case leaf =>
    intro id c' hid hc'
    rw [content?_changeContent, if_neg (by omega)] at hc'
    exact h.leaf hid hc'
  case child =>
    intro a e he
    rw [hsize]
    rcases hside a e he with ⟨rfl, hin⟩ | ⟨_, hin⟩
    · rcases hfrom e hin with ⟨key, hkey⟩ | ⟨hge, hlt, _⟩
      · have hchild := h.child (hold hkey)
        exact hchild
      · exact .inr ⟨hge, hlt⟩
    · exact h.child hin
  case ne_root =>
    intro a e he
    show e.2 ≠ d.root
    rcases hside a e he with ⟨rfl, hin⟩ | ⟨_, hin⟩
    · rcases hfrom e hin with ⟨key, hkey⟩ | ⟨hge, _, _⟩
      · have hroot := h.ne_root (hold hkey)
        exact hroot
      · have hroot := h.root_lt
        omega
    · exact h.ne_root hin
  case keys_nodup =>
    intro a
    by_cases ha : a = owner
    · subst ha
      rw [entries_changeContent hc]
      exact hkeys
    · rw [entries_changeContent_of_ne ha]
      exact h.keys_nodup a
  case unique =>
    intro a b e e' he he' heq
    rcases hside a e he with ⟨ha, hin⟩ | ⟨ha, hin⟩
    · rcases hside b e' he' with ⟨hb, hin'⟩ | ⟨hb, hin'⟩
      · exact ⟨ha.trans hb.symm, List.inj_on_of_nodup_map htargets hin hin' heq⟩
      · exact absurd heq (hdistinct hb hin hin')
    · rcases hside b e' he' with ⟨hb, hin'⟩ | ⟨hb, hin'⟩
      · exact absurd heq.symm (hdistinct ha hin' hin)
      · exact h.unique hin hin' heq

end IsTree

/-! ### Entries that give way to others -/

theorem exists_members_of_entry {name : String}
    (h : (.member name, id) ∈ d.entries owner) :
    ∃ before after, d.content? owner = some (.object (before ++ (name, id) :: after)) := by
  rcases hc : d.content? owner with _ | c
  · simp [entries_of_none hc] at h
  · rw [entries_of_content? hc] at h
    rcases c with members | items | _ | _
    · obtain ⟨⟨name', id'⟩, hm, heq⟩ := List.mem_map.1 h
      obtain ⟨rfl, rfl⟩ : name' = name ∧ id' = id := by simpa using heq
      obtain ⟨before, after, rfl⟩ := List.append_of_mem hm
      exact ⟨before, after, rfl⟩
    · simp [Content.entries] at h
    · simp [Content.entries] at h
    · simp [Content.entries] at h

theorem exists_items_of_entry {index : Nat} (h : (.item index, id) ∈ d.entries owner) :
    ∃ before after, before.length = index ∧
      d.content? owner = some (.array (before ++ id :: after)) := by
  rcases hc : d.content? owner with _ | c
  · simp [entries_of_none hc] at h
  · rw [entries_of_content? hc] at h
    rcases c with members | items | _ | _
    · simp [Content.entries] at h
    · obtain ⟨⟨id', index'⟩, hitem, heq⟩ := List.mem_map.1 h
      obtain ⟨rfl, rfl⟩ : index' = index ∧ id' = id := by simpa using heq
      rw [List.mem_zipIdx_iff_getElem?] at hitem
      obtain ⟨hlt, hget⟩ := List.getElem?_eq_some_iff.1 hitem
      simp only at hlt hget
      refine ⟨items.take index', items.drop (index' + 1), by rw [List.length_take]; omega, ?_⟩
      have hdrop : items.drop index' = id' :: items.drop (index' + 1) := by
        rw [List.drop_eq_getElem_cons hlt, hget]
      rw [← hdrop, List.take_append_drop]
    · simp [Content.entries] at h
    · simp [Content.entries] at h

theorem spliceInto_append {name : String} {before after more : List (String × Nat)}
    (h : name ∉ before.map (·.1)) :
    spliceInto name more (before ++ (name, id) :: after) = before ++ more ++ after := by
  induction before with
  | nil => simp [spliceInto]
  | cons m before ih =>
    rw [List.map_cons, List.mem_cons, not_or] at h
    rw [List.cons_append, spliceInto, if_neg (Ne.symm h.1), ih h.2]
    rfl

theorem not_mem_of_names_nodup {name : String} {before after : List (String × Nat)}
    (h : ((before ++ (name, id) :: after).map (·.1)).Nodup) : name ∉ before.map (·.1) := by
  rw [List.map_append, List.map_cons, List.nodup_append] at h
  exact fun hin => h.2.2 name hin name List.mem_cons_self rfl

theorem filter_name_append {name : String} {before after : List (String × Nat)}
    (h : ((before ++ (name, id) :: after).map (·.1)).Nodup) :
    (before ++ (name, id) :: after).filter (fun m => m.1 != name) = before ++ after := by
  have hbefore := not_mem_of_names_nodup h
  rw [List.map_append, List.map_cons, List.nodup_append, List.nodup_cons] at h
  rw [List.filter_append, List.filter_cons_of_neg (by simp)]
  congr 1
  · refine List.filter_eq_self.2 fun m hm => bne_iff_ne.2 fun heq => ?_
    exact hbefore (List.mem_map.2 ⟨m, hm, heq⟩)
  · refine List.filter_eq_self.2 fun m hm => bne_iff_ne.2 fun heq => ?_
    exact h.2.1.1 (List.mem_map.2 ⟨m, hm, heq⟩)

/-- A change counts by what it makes of the contents that are there. -/
theorem changeContent_congr {change change' : Content → Content}
    (hc : d.content? owner = some c) (h : change c = change' c) :
    d.changeContent owner change = d.changeContent owner change' := by
  obtain ⟨cell, hcell, rfl⟩ := Option.map_eq_some_iff.1 hc
  have hcells : d.cells.modify owner (fun cell => { cell with content := change cell.content }) =
      d.cells.modify owner (fun cell => { cell with content := change' cell.content }) := by
    refine Array.ext_getElem? fun i => ?_
    rw [Array.getElem?_modify, Array.getElem?_modify]
    by_cases hi : owner = i
    · subst hi
      rw [if_pos rfl, if_pos rfl, hcell, Option.map_some, Option.map_some, h]
    · rw [if_neg hi, if_neg hi]
  rw [changeContent, changeContent, hcells]

/-- New members have names of their own. -/
theorem freshMembers_spec (taken : List String) (members : List (String × Node)) :
    ((freshMembers taken members).map (·.1)).Nodup ∧
      ∀ m ∈ freshMembers taken members, m.1 ∉ taken := by
  induction members generalizing taken with
  | nil => simp [freshMembers]
  | cons m members ih =>
    rw [freshMembers]
    split
    · exact ih taken
    · rename_i hfresh
      obtain ⟨hnodup, hall⟩ := ih (m.1 :: taken)
      refine ⟨?_, ?_⟩
      · rw [List.map_cons, List.nodup_cons]
        refine ⟨fun hmem => ?_, hnodup⟩
        obtain ⟨m', hm', heq⟩ := List.mem_map.1 hmem
        exact hall m' hm' (by simp [heq])
      · intro m' hm'
        rcases List.mem_cons.1 hm' with rfl | hm'
        · simpa using hfresh
        · exact fun hin => hall m' hm' (List.mem_cons_of_mem _ hin)

/-- A change of one container, behind which new cells have been added. -/
theorem editedBy_changeContent {position : Position} {ns : List Node}
    {change : Content → Content} (hc : d.content? owner = some c)
    (hedit : Content.Edited xs d.cells.size c (change c)) :
    d.EditedBy xs ((d.addAll position ns).1.changeContent owner change) := by
  have howner := content?_lt_size hc
  constructor
  case root_eq =>
    rw [addAll_eq]
    rfl
  case size_le =>
    rw [changeContent, Array.size_modify, size_addAll]
    omega
  case content =>
    intro id c' hc' _
    have hlt := content?_lt_size hc'
    by_cases heq : id = owner
    · subst heq
      obtain rfl : c = c' := Option.some.inj (hc.symm.trans hc')
      refine ⟨change c, ?_, hedit⟩
      rw [content?_changeContent, if_pos rfl, content?_addAll_of_lt hlt, hc]
      rfl
    · refine ⟨c', ?_, .refl ..⟩
      rw [content?_changeContent, if_neg heq, content?_addAll_of_lt hlt, hc']
  case fresh =>
    intro id c' hid hc'
    rw [content?_changeContent, if_neg (by omega)] at hc'
    exact exists_imported_of_addAll hid hc'
  case bare =>
    intro id hnil
    by_cases heq : id = owner
    · subst heq
      rw [entries_of_content? hc] at hnil
      refine (entries_of_content? ?_).trans (hedit.entries_eq_nil hnil)
      rw [content?_changeContent, if_pos rfl, content?_addAll_of_lt howner, hc]
      rfl
    · rw [entries, content?_changeContent, if_neg heq]
      exact (entries_addAll ..).trans hnil

namespace IsTree

variable {x : Directive} {position : Position} {ns : List Node}

/-- Old numbers that are different stay so when new ones take the place of one of them. -/
theorem nodup_replaced {before after more : List Nat} {first count : Nat}
    (hnodup : (before ++ id :: after).Nodup) (hlow : ∀ i ∈ before ++ after, i < first)
    (hmore : more.Sublist (List.range' first count)) : (before ++ more ++ after).Nodup := by
  have hrest : (before ++ after).Nodup :=
    hnodup.sublist ((List.sublist_cons_self id after).append_left before)
  have hfresh : (more ++ (before ++ after)).Nodup := by
    rw [List.nodup_append]
    refine ⟨hmore.nodup List.nodup_range', hrest, fun i hi j hj heq => ?_⟩
    have hhigh := (List.mem_range'_1.1 (hmore.subset hi)).1
    have hold := hlow j hj
    omega
  have hperm : (before ++ more ++ after).Perm (more ++ (before ++ after)) := by
    rw [← List.append_assoc]
    exact List.perm_append_comm.append_right after
  exact hperm.nodup_iff.2 hfresh

/-- The entries of a container whose one entry gives way to new cells. -/
theorem replaceEntries (h : d.IsTree n) {change : Content → Content}
    (hc : d.content? owner = some c) {before after more : List Nat}
    (hbefore : c.entries.map (·.2) = before ++ id :: after)
    (hafter : (change c).entries.map (·.2) = before ++ more ++ after)
    (hkeys : ((change c).entries.map (·.1)).Nodup)
    (hmore : more.Sublist (List.range' d.cells.size ns.length)) :
    ((d.addAll position ns).1.changeContent owner change).IsTree n := by
  have hentries := entries_of_content? hc
  have hne : d.entries owner ≠ [] := by
    intro hnil
    rw [← hentries, hnil] at hbefore
    simp at hbefore
  obtain ⟨e, he⟩ := List.exists_mem_of_ne_nil _ hne
  have howner := h.owner_lt he
  have hgrown := h.addAll position ns
  have hc' : (d.addAll position ns).1.content? owner = some c := by
    rw [content?_addAll_of_lt (content?_lt_size hc), hc]
  have hnodup : (before ++ id :: after).Nodup := by
    rw [← hbefore, ← hentries]
    exact h.targets_nodup owner
  have hkept : ∀ i ∈ before ++ after, i ∈ c.entries.map (·.2) := by
    intro i hi
    rw [hbefore]
    exact ((List.sublist_cons_self id after).append_left before).subset hi
  have hlow : ∀ i ∈ before ++ after, i < d.cells.size := by
    intro i hi
    obtain ⟨e, he, rfl⟩ := List.mem_map.1 (hkept i hi)
    rw [← hentries] at he
    exact h.target_lt he
  refine hgrown.changeContent hc' howner hkeys ?_ ?_
  · rw [hafter]
    exact nodup_replaced hnodup hlow hmore
  · intro e he
    have hmem : e.2 ∈ before ++ more ++ after := hafter ▸ List.mem_map_of_mem he
    by_cases hin : e.2 ∈ more
    · -- a new cell, which no container names yet
      right
      have hhigh := List.mem_range'_1.1 (hmore.subset hin)
      have hsize := d.size_addAll position ns
      have hn := h.size_le
      refine ⟨by omega, by omega, fun a e' he' heq => ?_⟩
      rw [entries_addAll] at he'
      have hold := h.target_lt he'
      omega
    · left
      have hold : e.2 ∈ before ++ after := by simp_all
      obtain ⟨⟨key, target⟩, hentry, heq⟩ := List.mem_map.1 (hkept e.2 hold)
      obtain rfl : target = e.2 := heq
      exact ⟨key, hentry⟩

/-- The names of the members of an object are different. -/
theorem names_nodup (h : d.IsTree n) {members : List (String × Nat)}
    (hc : d.content? owner = some (.object members)) : (members.map (·.1)).Nodup := by
  have hkeys := h.keys_nodup owner
  rw [entries_of_content? hc, Content.entries, List.map_map] at hkeys
  have hmap : (members.map (Key.member ∘ (·.1))).Nodup := hkeys
  rw [← List.map_map] at hmap
  exact List.Nodup.of_map _ hmap

/-- The member of a directive gives way to new members, whose names are new too. -/
theorem spliceMember (h : d.IsTree n) (position : Position) (ns : List Node)
    (names : List String) {name : String} (hx : x ∈ xs)
    (hentry : (.member name, x.cell) ∈ d.entries owner)
    (hlength : names.length = ns.length) (hnames : names.Nodup)
    (hfresh : ∀ other ∈ names, other ∉ d.memberNames owner)
    (hgrows : names = [] ∨ x.action.grows) :
    d.EditedBy xs ((d.addAll position ns).1.spliceMember owner name
        (names.zip (d.addAll position ns).2)) ∧
      ((d.addAll position ns).1.spliceMember owner name
        (names.zip (d.addAll position ns).2)).IsTree n := by
  obtain ⟨before, after, hc⟩ := exists_members_of_entry hentry
  have hids : (d.addAll position ns).2 = List.range' d.cells.size ns.length := by rw [addAll_eq]
  have hold := h.names_nodup hc
  have hnot := not_mem_of_names_nodup hold
  generalize hmore : names.zip (d.addAll position ns).2 = more
  have htargets : more.map (·.2) = List.range' d.cells.size ns.length := by
    rw [← hmore, hids, List.map_snd_zip]
    simp [hlength]
  have hmoreNames : more.map (·.1) = names := by
    rw [← hmore, hids, List.map_fst_zip]
    simp [hlength]
  refine ⟨editedBy_changeContent hc ?_, ?_⟩
  · show Content.Edited xs d.cells.size _
      (.object (spliceInto name more (before ++ (name, x.cell) :: after)))
    rw [spliceInto_append hnot]
    refine .object (.single hx rfl ?_ ?_)
    · intro m hm
      have hin : m.2 ∈ more.map (·.2) := List.mem_map_of_mem hm
      rw [htargets] at hin
      exact (List.mem_range'_1.1 hin).1
    · refine hgrows.imp_left fun hnil => ?_
      rw [← hmore, hnil]
      rfl
  · have hspliced : Content.object (spliceInto name more (before ++ (name, x.cell) :: after)) =
        .object (before ++ more ++ after) := by rw [spliceInto_append hnot]
    have hbefore : (Content.object (before ++ (name, x.cell) :: after)).entries.map (·.2) =
        before.map (·.2) ++ x.cell :: after.map (·.2) := by
      rw [Content.object_targets, List.map_append, List.map_cons]
    have hafter : (Content.object (spliceInto name more
        (before ++ (name, x.cell) :: after))).entries.map (·.2) =
          before.map (·.2) ++ more.map (·.2) ++ after.map (·.2) := by
      rw [hspliced, Content.object_targets, List.map_append, List.map_append]
    -- the new names are none of the old ones, whichever of these stay
    have hkeys : ((Content.object (spliceInto name more
        (before ++ (name, x.cell) :: after))).entries.map (·.1)).Nodup := by
      rw [hspliced]
      refine Content.object_keys_nodup ?_
      have hperm : ((before ++ more ++ after).map (·.1)).Perm
          (names ++ (before ++ after).map (·.1)) := by
        rw [← hmoreNames, ← List.map_append, ← List.append_assoc]
        exact (List.perm_append_comm.append_right after).map _
      have hsub : ((before ++ after).map (·.1)).Sublist
          ((before ++ (name, x.cell) :: after).map (·.1)) :=
        ((List.sublist_cons_self (name, x.cell) after).append_left before).map _
      rw [hperm.nodup_iff, List.nodup_append]
      refine ⟨hnames, hsub.nodup hold, fun other hother taken htaken heq => ?_⟩
      refine hfresh other hother ?_
      rw [memberNames, hc, heq]
      exact hsub.subset htaken
    exact h.replaceEntries hc hbefore hafter hkeys (htargets ▸ List.Sublist.refl _)

/-- The item of a directive gives way to new items. -/
theorem splice (h : d.IsTree n) (position : Position) (ns : List Node) {index : Nat} (hx : x ∈ xs)
    (hentry : (.item index, x.cell) ∈ d.entries owner) (hgrows : ns = [] ∨ x.action.grows)
    {change : Content → Content}
    (hchange : ∀ items, change (.array items) =
      .array (items.take index ++ (d.addAll position ns).2 ++ items.drop (index + 1))) :
    d.EditedBy xs ((d.addAll position ns).1.changeContent owner change) ∧
      ((d.addAll position ns).1.changeContent owner change).IsTree n := by
  obtain ⟨before, after, rfl, hc⟩ := exists_items_of_entry hentry
  have hids : (d.addAll position ns).2 = List.range' d.cells.size ns.length := by rw [addAll_eq]
  generalize hmore : (d.addAll position ns).2 = more at hchange hids
  have hspliced : change (.array (before ++ x.cell :: after)) =
      .array (before ++ more ++ after) := by
    rw [hchange, List.take_left, List.drop_append]
    simp
  have hsub : more.Sublist (List.range' d.cells.size ns.length) := by rw [hids]
  refine ⟨editedBy_changeContent hc ?_, ?_⟩
  · rw [hspliced]
    refine .array (.single hx rfl ?_ ?_)
    · intro i hi
      rw [hids] at hi
      exact (List.mem_range'_1.1 hi).1
    · refine hgrows.imp_left fun hnil => ?_
      rw [hids, hnil]
      rfl
  · refine h.replaceEntries hc (Content.array_targets _) ?_ ?_ hsub
    · rw [hspliced]
      exact Content.array_targets _
    · rw [hspliced]
      exact Content.array_keys_nodup _

/-- The entry of a directive is taken out. -/
theorem without (h : d.IsTree n) (hx : x ∈ xs) :
    d.EditedBy xs (d.without x.cell) ∧ (d.without x.cell).IsTree n := by
  rw [Draft.without, remove?]
  rcases hs : d.slot? x.cell with _ | s
  · exact ⟨.refl xs d, h⟩
  · have hentry := mem_entries_of_slot? hs
    rcases s with ⟨object, name⟩ | ⟨array, index⟩
    · -- names differ, so leaving out a name is putting nothing in its place
      have hspliced := h.spliceMember .start [] [] hx hentry rfl List.nodup_nil (by simp) (.inl rfl)
      obtain ⟨before, after, hc⟩ := exists_members_of_entry hentry
      have hsame : d.changeContent object (Content.without (.member object name)) =
          d.spliceMember object name [] := by
        refine changeContent_congr hc ?_
        have hnames := h.names_nodup hc
        have hout := filter_name_append hnames
        have hin : spliceInto name [] (before ++ (name, x.cell) :: after) = before ++ [] ++ after :=
          spliceInto_append (not_mem_of_names_nodup hnames)
        simp only [Content.without, hout, hin, List.append_nil]
      rw [Option.map_some, Option.getD_some]
      exact hsame ▸ hspliced
    · refine h.splice .start [] hx hentry (.inl rfl) fun items => ?_
      show Content.array (items.eraseIdx index) = _
      rw [List.eraseIdx_eq_take_drop_succ]
      simp [Draft.addAll]

end IsTree

/-! ### Results -/

variable {x : Directive} {position : Position}

/-- A cell that names no other may hold a finished value or a scalar instead. -/
theorem setContent_edits (h : d.IsTree n) (hx : x.cell < n) (hleaf : d.entries x.cell = [])
    (hc : c.entries = []) :
    d.EditedBy [x] (d.setContent x.cell c) ∧ (d.setContent x.cell c).IsTree n := by
  refine ⟨⟨rfl, ?_, ?_, ?_, ?_⟩, h.setContent hx hleaf hc⟩
  · rw [setContent, Array.size_modify]
  · intro id c' hc' hne
    refine ⟨c', ?_, .refl ..⟩
    rw [content?_setContent, if_neg (Ne.symm (hne x (List.mem_singleton_self x))), hc']
  · intro id c' hid hc'
    have hlt := content?_lt_size hc'
    rw [setContent, Array.size_modify] at hlt
    omega
  · intro id hnil
    rw [entries, content?_setContent]
    split
    · rcases d.content? id with _ | _
      · rfl
      · exact hc
    · exact hnil

theorem addAll_edits (h : d.IsTree n) (position : Position) (ns : List Node) :
    d.EditedBy [x] (d.addAll position ns).1 ∧ (d.addAll position ns).1.IsTree n := by
  refine ⟨⟨?_, ?_, ?_, ?_, ?_⟩, h.addAll position ns⟩
  · rw [addAll_eq]
  · rw [size_addAll]
    omega
  · intro id c hc _
    refine ⟨c, ?_, .refl ..⟩
    rw [content?_addAll_of_lt (content?_lt_size hc), hc]
  · intro id c hid hc
    exact exists_imported_of_addAll hid hc
  · intro id hnil
    rw [entries_addAll, hnil]

theorem writeMembers_edits (h : d.IsTree n) (hgrows : x.action.grows)
    (outcome : Except Fault Value) :
    d.EditedBy [x] (d.writeMembers x.cell outcome).1 ∧
      (d.writeMembers x.cell outcome).1.IsTree n := by
  rw [writeMembers]
  have hx : x ∈ [x] := List.mem_singleton_self x
  split
  · rename_i object name hslot
    have hentry := mem_entries_of_slot? hslot
    simp only
    split
    · exact h.spliceMember .start [] [] hx hentry rfl List.nodup_nil (by simp) (.inl rfl)
    · rename_i offered _
      generalize hfresh : freshMembers (copyFieldsName :: d.memberNames object) offered = fresh
      have hspec := freshMembers_spec (copyFieldsName :: d.memberNames object) offered
      rw [hfresh] at hspec
      refine h.spliceMember (d.positionOf x.cell) (fresh.map (·.2)) (fresh.map (·.1)) hx hentry
        (by simp) hspec.1 ?_ (.inr hgrows)
      intro other hother hin
      obtain ⟨m, hm, rfl⟩ := List.mem_map.1 hother
      exact hspec.2 m hm (List.mem_cons_of_mem _ hin)
  · exact ⟨.refl [x] d, h⟩

theorem writeItems_edits (h : d.IsTree n) (w : Workshop) (hgrows : x.action.grows)
    (outcome : Except Fault Value) :
    d.EditedBy [x] (d.writeItems w x.cell outcome).1 ∧
      (d.writeItems w x.cell outcome).1.IsTree n := by
  have hx : x ∈ [x] := List.mem_singleton_self x
  rcases outcome with fault | v
  · exact h.without hx
  · rw [writeItems]
    generalize hposition : d.positionOf x.cell = position
    generalize hmerged : v.mergedItems w.id = ns
    simp only
    rw [Draft.splice, slot?_addAll]
    rcases hs : d.slot? x.cell with _ | ⟨object, name⟩ | ⟨array, index⟩
    · exact addAll_edits h position ns
    · exact addAll_edits h position ns
    · simp only
      refine h.splice position ns hx (mem_entries_of_slot? hs) (.inr hgrows) ?_
      intro items
      rfl

theorem writeValue_edits (h : d.IsTree n) (w : Workshop) (hx : x.cell < n)
    (hleaf : d.entries x.cell = []) (outcome : Except Fault Value) :
    d.EditedBy [x] (d.writeValue w x.cell position outcome).1 ∧
      (d.writeValue w x.cell position outcome).1.IsTree n := by
  rcases outcome with fault | v
  · exact ⟨.refl [x] d, h⟩
  · rw [writeValue]
    split
    · exact setContent_edits h hx hleaf rfl
    · split
      · split
        · exact setContent_edits h hx hleaf rfl
        · exact h.without (List.mem_singleton_self x)
      · exact ⟨.refl [x] d, h⟩

theorem writeText_edits (h : d.IsTree n) (hx : x.cell < n) (hleaf : d.entries x.cell = [])
    (outcome : Except Fault Value) :
    d.EditedBy [x] (d.writeText x.cell outcome).1 ∧ (d.writeText x.cell outcome).1.IsTree n := by
  rcases outcome with fault | v
  · exact ⟨.refl [x] d, h⟩
  · exact setContent_edits h hx hleaf rfl

/-- Whatever becomes of a directive, only its cell and its place change, and the draft stays a tree.
-/
theorem write_edits (h : d.IsTree n) (w : Workshop) (hx : x.cell < n)
    (hleaf : d.entries x.cell = []) (outcome : Except Fault Value) :
    d.EditedBy [x] (d.write w x outcome).1 ∧ (d.write w x outcome).1.IsTree n := by
  rw [write]
  split
  · rename_i hAction
    exact writeMembers_edits h (by rw [hAction]; rfl) outcome
  · rename_i hAction
    exact writeItems_edits h w (by rw [hAction]; rfl) outcome
  · exact writeValue_edits h w hx hleaf outcome
  · exact writeText_edits h hx hleaf outcome

end Draft

end DocQuery
