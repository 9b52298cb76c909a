/-
Cells that are taken out of a draft.

* `Draft.IsTree.not_mem_without` — no container names a cell that has been taken out;
* `Draft.EditedBy.exists_old_entry` — and none will, because a container only gains new cells;
* `Draft.EditedBy.exists_members` — an object gains members only where a directive adds some.
-/
import DocQuery.Proofs.Draft.Write

namespace DocQuery

variable {xs : List Directive} {first : Nat}

/-- Where no directive adds entries, all entries are old ones. -/
theorem Edited.subset {α : Type} {idOf : α → Nat} {as bs : List α} (h : Edited idOf xs first as bs)
    (hgrows : ∀ x ∈ xs, ∀ a ∈ as, x.cell = idOf a → ¬ x.action.grows) : bs ⊆ as := by
  induction h with
  | nil => exact List.Subset.refl _
  | @keep a as bs _ ih =>
    refine List.cons_subset_cons a (ih fun x hx b hb => ?_)
    exact hgrows x hx b (List.mem_cons_of_mem a hb)
  | @swap x a as bs more hx ha _ hmore _ ih =>
    obtain rfl := hmore.resolve_right (hgrows x hx a List.mem_cons_self ha)
    refine List.Subset.trans (ih fun y hy b hb => ?_) (List.subset_cons_self a as)
    exact hgrows y hy b (List.mem_cons_of_mem a hb)

namespace Draft

variable {d d' : Draft} {n id owner : Nat} {key : Key}

/-- Keys lead to where they led, whatever a cell holds that names no other. -/
theorem Leads.setContent {a : Nat} {keys : List Key} {c : Content} (h : d.Leads a keys owner)
    (hleaf : d.entries id = []) : (d.setContent id c).Leads a keys owner := by
  induction h with
  | here a => exact .here a
  | @down a child last key keys he _ ih =>
    refine .down ?_ ih
    have hne : a ≠ id := by
      rintro rfl
      rw [hleaf] at he
      simp at he
    rw [entries, content?_setContent, if_neg hne]
    exact he

namespace IsTree

/-- No container names a cell that has been taken out. -/
theorem not_mem_without (h : d.IsTree n) (id owner : Nat) (key : Key) :
    (key, id) ∉ (d.without id).entries owner := by
  intro he
  rw [Draft.without, remove?] at he
  rcases hs : d.slot? id with _ | s
  · rw [hs, Option.map_none, Option.getD_none] at he
    obtain ⟨s, hs'⟩ := exists_slot?_of_mem he
    rw [hs] at hs'
    exact absurd hs' (by simp)
  · rw [hs, Option.map_some, Option.getD_some, entries, content?_changeContent] at he
    have hentry := mem_entries_of_slot? hs
    by_cases howner : owner = s.owner
    · rw [if_pos howner] at he
      rw [← howner] at hentry
      -- what is left beside the slot has other keys, and only the slot names the cell
      have hleft : ∀ key', (key', id) ∈ d.entries owner → key' = s.key := fun key' he' =>
        congrArg Prod.fst (h.unique he' hentry rfl).2
      rcases s with ⟨object, name⟩ | ⟨array, index⟩
      · obtain ⟨before, after, hc⟩ := exists_members_of_entry hentry
        rw [hc] at he
        obtain ⟨m, hm, heq⟩ := List.mem_map.1 he
        obtain ⟨hin, hname⟩ := List.mem_filter.1 hm
        obtain ⟨rfl, rfl⟩ := Prod.mk.injEq .. ▸ heq
        have hkey := hleft (.member m.1) (by
          rw [entries_of_content? hc]
          exact List.mem_map_of_mem (f := fun m => (Key.member m.1, m.2)) hin)
        exact absurd (Key.member.inj hkey) (bne_iff_ne.1 hname)
      · obtain ⟨before, after, rfl, hc⟩ := exists_items_of_entry hentry
        rw [hc] at he
        obtain ⟨⟨item, i⟩, hitem, heq⟩ := List.mem_map.1 he
        obtain ⟨rfl, rfl⟩ := Prod.mk.injEq .. ▸ heq
        rw [List.mem_zipIdx_iff_getElem?] at hitem
        obtain ⟨j, hne, hj⟩ := List.mem_eraseIdx_iff_getElem?.1 (List.mem_of_getElem? hitem)
        have hkey := hleft (.item j) (by
          rw [entries_of_content? hc]
          refine List.mem_map.2 ⟨(item, j), ?_, rfl⟩
          rwa [List.mem_zipIdx_iff_getElem?])
        exact absurd (Key.item.inj hkey) hne
    · rw [if_neg howner] at he
      exact howner (h.unique he hentry rfl).1

/-- An object has no member of the name of one that has been taken out. -/
theorem exists_members_without (h : d.IsTree n) {name : String}
    (he : (.member name, id) ∈ d.entries owner) :
    ∃ members, (d.without id).content? owner = some (.object members) ∧
      name ∉ members.map (·.1) := by
  obtain ⟨s, hs, rfl, hkey⟩ := h.slot?_of_mem he
  rcases s with ⟨object, name'⟩ | ⟨array, index⟩
  · obtain rfl : name' = name := Key.member.inj hkey
    obtain ⟨before, after, hc⟩ := exists_members_of_entry he
    refine ⟨(before ++ (name', id) :: after).filter fun m => m.1 != name', ?_, ?_⟩
    · rw [Draft.without, remove?, hs, Option.map_some, Option.getD_some, content?_changeContent,
        if_pos rfl, hc]
      rfl
    · intro hin
      obtain ⟨m, hm, rfl⟩ := List.mem_map.1 hin
      exact absurd rfl (bne_iff_ne.1 (List.mem_filter.1 hm).2)
  · exact absurd hkey (by simp [Slot.key])

end IsTree

namespace EditedBy

theorem exists_content_of_entry (h : d.EditedBy xs d') (hbare : ∀ x ∈ xs, d.entries x.cell = [])
    (he : (key, id) ∈ d'.entries owner) :
    ∃ c c', d.content? owner = some c ∧ d'.content? owner = some c' ∧
      Content.Edited xs d.cells.size c c' := by
  have hsome : d.entries owner ≠ [] := by
    intro hnil
    rw [h.bare hnil] at he
    simp at he
  rcases hc : d.content? owner with _ | c
  · exact absurd (entries_of_none hc) hsome
  · obtain ⟨c', hc', hedit⟩ := h.content hc fun x hx heq => hsome (heq ▸ hbare x hx)
    exact ⟨c, c', rfl, hc', hedit⟩

/-- A container gains no cells but new ones. -/
theorem exists_old_entry (h : d.EditedBy xs d') (hbare : ∀ x ∈ xs, d.entries x.cell = [])
    (hid : id < d.cells.size) (he : (key, id) ∈ d'.entries owner) :
    ∃ key', (key', id) ∈ d.entries owner := by
  obtain ⟨c, c', hc, hc', hedit⟩ := h.exists_content_of_entry hbare he
  rw [entries_of_content? hc'] at he
  rw [entries_of_content? hc]
  rcases hedit.entry_or_le he with hold | hfresh
  · exact hold
  · omega

/-- Keys do not lead to a cell that no container names. -/
theorem not_leads (h : d.EditedBy xs d') (hbare : ∀ x ∈ xs, d.entries x.cell = [])
    (hid : id < d.cells.size) (hroot : id ≠ d.root)
    (hnot : ∀ owner key, (key, id) ∉ d.entries owner) (keys : List Key) : ¬ d'.Leads d'.root keys id := by
  intro hleads
  rcases keys.eq_nil_or_concat' with rfl | ⟨keys, key, rfl⟩
  · rw [h.root_eq] at hleads
    generalize d.root = root at hleads hroot
    rcases hleads with _ | _
    exact hroot rfl
  · obtain ⟨owner, _, he⟩ := hleads.exists_owner
    obtain ⟨key', he'⟩ := h.exists_old_entry hbare hid he
    exact hnot owner key' he'

/-- An object has only old members, unless a directive adds some to it. -/
theorem exists_members (h : d.EditedBy xs d') {members : List (String × Nat)}
    (hc : d.content? owner = some (.object members)) (hne : ∀ x ∈ xs, x.cell ≠ owner)
    (hgrows : ∀ x ∈ xs, ∀ m ∈ members, x.cell = m.2 → ¬ x.action.grows) :
    ∃ members', d'.content? owner = some (.object members') ∧ members' ⊆ members := by
  obtain ⟨c', hc', hedit⟩ := h.content hc hne
  cases hedit with
  | object hmembers => exact ⟨_, hc', hmembers.subset hgrows⟩

end EditedBy

end Draft

end DocQuery
