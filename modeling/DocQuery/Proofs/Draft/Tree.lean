/-
Drafts as trees.

* `Draft.IsTree` — a draft in which every cell sits in one container at most, and none in itself;
* `Draft.Leads` — the keys that lead from one cell to another;
* `Draft.IsTree.lookup_walk_iff` — a walk finds exactly the cells to which keys lead, and those keys;
* `Draft.IsTree.order_nodup` — it finds each of them once;
* `Draft.IsTree.slot?_of_mem` — the slot of a cell is the one place that names it.

Design notes: the first `n` cells come from a text, each container after what it holds; the cells
behind them hold finished values. So a way down from a container goes to lower numbers, until it
reaches a cell that holds nothing, and this is what the fuel of a walk is measured by.
-/
import Mathlib.Data.List.Induction
import Mathlib.Data.List.Nodup
import DocQuery.Draft.Freeze

namespace DocQuery

/-- The key of a slot. -/
def Slot.key : Slot → Key
  | .member _ name => .member name
  | .item _ index => .item index

namespace Draft

/-- The cells that a cell names, each with its key. -/
def entries (d : Draft) (id : Nat) : List (Key × Nat) :=
  ((d.content? id).map Content.entries).getD []

/-- Whether a draft is a tree whose first `n` cells come from a text. -/
structure IsTree (n : Nat) (d : Draft) : Prop where
  root_lt : d.root < n
  size_le : n ≤ d.cells.size
  leaf : ∀ {id c}, n ≤ id → d.content? id = some c → ∃ v, c = .imported v
  child : ∀ {owner e}, e ∈ d.entries owner → e.2 < owner ∨ n ≤ e.2 ∧ e.2 < d.cells.size
  ne_root : ∀ {owner e}, e ∈ d.entries owner → e.2 ≠ d.root
  keys_nodup : ∀ owner, ((d.entries owner).map (·.1)).Nodup
  unique : ∀ {a b e e'}, e ∈ d.entries a → e' ∈ d.entries b → e.2 = e'.2 → a = b ∧ e = e'

/-- The keys lead from one cell to another. -/
inductive Leads (d : Draft) : Nat → List Key → Nat → Prop
  | here (id : Nat) : Leads d id [] id
  | down {id child last : Nat} {key : Key} {keys : List Key} :
    (key, child) ∈ d.entries id → Leads d child keys last → Leads d id (key :: keys) last

variable {d : Draft} {n id child last owner : Nat} {key : Key} {keys more : List Key}

/-! ### Ways through a draft -/

theorem lt_size_of_mem_entries {e : Key × Nat} (h : e ∈ d.entries owner) :
    owner < d.cells.size := by
  by_contra hge
  have hnone : d.content? owner = none := by
    rw [content?, Array.getElem?_eq_none (by omega)]
    rfl
  rw [entries, hnone] at h
  simp at h

namespace Leads

theorem single (h : (key, child) ∈ d.entries id) : d.Leads id [key] child :=
  .down h (.here child)

theorem trans (h : d.Leads id keys child) (h' : d.Leads child more last) :
    d.Leads id (keys ++ more) last := by
  induction h with
  | here _ => exact h'
  | down he _ ih => exact .down he (ih h')

theorem snoc (h : d.Leads id keys owner) (he : (key, child) ∈ d.entries owner) :
    d.Leads id (keys ++ [key]) child :=
  h.trans (.single he)

/-- A way can be cut in two anywhere. -/
theorem exists_between (h : d.Leads id (keys ++ more) last) :
    ∃ middle, d.Leads id keys middle ∧ d.Leads middle more last := by
  induction keys generalizing id with
  | nil => exact ⟨id, .here id, h⟩
  | cons key keys ih =>
    rcases h with _ | ⟨he, hrest⟩
    obtain ⟨middle, hleft, hright⟩ := ih hrest
    exact ⟨middle, .down he hleft, hright⟩

theorem exists_owner (h : d.Leads id (keys ++ [key]) last) :
    ∃ owner, d.Leads id keys owner ∧ (key, last) ∈ d.entries owner := by
  obtain ⟨owner, hleft, hright⟩ := h.exists_between
  rcases hright with _ | ⟨he, hend⟩
  rcases hend with _ | _
  exact ⟨owner, hleft, he⟩

end Leads

namespace IsTree

theorem owner_lt (h : d.IsTree n) {e : Key × Nat} (he : e ∈ d.entries owner) : owner < n := by
  by_contra hge
  rcases hc : d.content? owner with _ | c
  · rw [entries, hc] at he
    simp at he
  · obtain ⟨v, rfl⟩ := h.leaf (by omega) hc
    rw [entries, hc] at he
    simp [Content.entries] at he

theorem entry_unique (h : d.IsTree n) {e e' : Key × Nat} (he : e ∈ d.entries owner)
    (he' : e' ∈ d.entries owner) (hkey : e.1 = e'.1) : e = e' :=
  List.inj_on_of_nodup_map (h.keys_nodup owner) he he' hkey

/-- The same keys lead to one cell only. -/
theorem leads_target (h : d.IsTree n) {a b : Nat} (ha : d.Leads id keys a)
    (hb : d.Leads id keys b) : a = b := by
  induction ha with
  | here _ =>
    rcases hb with _ | _
    rfl
  | down he _ ih =>
    rcases hb with _ | ⟨he', hb'⟩
    obtain rfl : _ = _ := congrArg Prod.snd (h.entry_unique he he' rfl)
    exact ih hb'

/-- Only one way leads from the root to a cell. -/
theorem leads_unique (h : d.IsTree n) (hkeys : d.Leads d.root keys id)
    (hmore : d.Leads d.root more id) : keys = more := by
  -- from the end back, since the last step is the one place that names the cell
  induction keys using List.reverseRecOn generalizing more id with
  | nil =>
    rcases hkeys with _ | _
    rcases more.eq_nil_or_concat' with rfl | ⟨more, key, rfl⟩
    · rfl
    · obtain ⟨owner, _, he⟩ := hmore.exists_owner
      exact absurd rfl (h.ne_root he)
  | append_singleton keys key ih =>
    obtain ⟨owner, hleft, he⟩ := hkeys.exists_owner
    rcases more.eq_nil_or_concat' with rfl | ⟨more, key', rfl⟩
    · rcases hmore with _ | _
      exact absurd rfl (h.ne_root he)
    · obtain ⟨owner', hleft', he'⟩ := hmore.exists_owner
      obtain ⟨rfl, heq⟩ := h.unique he he' rfl
      obtain rfl : key = key' := congrArg Prod.fst heq
      rw [ih hleft hleft']

end IsTree

/-! ### Walks -/

/-- The fuel that a walk from the cell `id` needs. -/
def Enough (n : Nat) (d : Draft) (fuel id : Nat) : Prop :=
  1 ≤ fuel ∧ (id < n → id + 1 + (d.cells.size - n) ≤ fuel)

namespace IsTree

theorem enough_root (h : d.IsTree n) : Enough n d d.cells.size d.root := by
  have := h.root_lt
  have := h.size_le
  exact ⟨by omega, fun _ => by omega⟩

theorem enough_child (h : d.IsTree n) {fuel : Nat} (hf : Enough n d (fuel + 1) owner)
    {e : Key × Nat} (he : e ∈ d.entries owner) : Enough n d fuel e.2 := by
  have howner := h.owner_lt he
  have hchild := h.child he
  have hfuel := hf.2 howner
  exact ⟨by omega, fun _ => by omega⟩

end IsTree

theorem walkFrom_succ (d : Draft) (fuel : Nat) (keys : List Key) (id : Nat) :
    d.walkFrom (fuel + 1) keys id =
      (id, keys) :: (d.entries id).flatMap fun e => d.walkFrom fuel (keys ++ [e.1]) e.2 :=
  rfl

/-- What a walk finds is where keys lead. -/
theorem leads_of_mem_walkFrom {fuel : Nat} (h : (last, more) ∈ d.walkFrom fuel keys id) :
    ∃ rest, more = keys ++ rest ∧ d.Leads id rest last := by
  induction fuel generalizing keys id with
  | zero => simp [walkFrom] at h
  | succ fuel ih =>
    rw [walkFrom_succ, List.mem_cons, List.mem_flatMap] at h
    rcases h with h | ⟨⟨key, child⟩, he, h⟩
    · obtain ⟨rfl, rfl⟩ := Prod.mk.injEq .. ▸ h
      exact ⟨[], (List.append_nil _).symm, .here _⟩
    · obtain ⟨rest, rfl, hrest⟩ := ih h
      exact ⟨key :: rest, by simp, .down he hrest⟩

/-- A walk with enough fuel finds all cells to which keys lead. -/
theorem IsTree.mem_walkFrom (h : d.IsTree n) {fuel : Nat} (hf : Enough n d fuel id)
    (hleads : d.Leads id more last) : (last, keys ++ more) ∈ d.walkFrom fuel keys id := by
  induction hleads generalizing fuel keys with
  | here id =>
    obtain ⟨fuel, rfl⟩ := Nat.exists_eq_succ_of_ne_zero (Nat.pos_iff_ne_zero.1 hf.1)
    rw [walkFrom_succ, List.append_nil]
    exact List.mem_cons_self
  | @down id child last key more he _ ih =>
    obtain ⟨fuel, rfl⟩ := Nat.exists_eq_succ_of_ne_zero (Nat.pos_iff_ne_zero.1 hf.1)
    rw [walkFrom_succ, List.mem_cons, List.mem_flatMap]
    right
    refine ⟨(key, child), he, ?_⟩
    have hchild : (last, (keys ++ [key]) ++ more) ∈ d.walkFrom fuel (keys ++ [key]) child :=
      ih (h.enough_child hf he)
    rwa [List.append_assoc] at hchild

/-- The keys that a walk finds are all different. -/
theorem IsTree.walkFrom_keys_nodup (h : d.IsTree n) (fuel : Nat) (keys : List Key) (id : Nat) :
    ((d.walkFrom fuel keys id).map (·.2)).Nodup := by
  induction fuel generalizing keys id with
  | zero => simp [walkFrom]
  | succ fuel ih =>
    rw [walkFrom_succ, List.map_cons, List.nodup_cons, List.map_flatMap]
    constructor
    · intro hmem
      obtain ⟨e, _, hin⟩ := List.mem_flatMap.1 hmem
      obtain ⟨⟨last, more⟩, hwalk, heq⟩ := List.mem_map.1 hin
      obtain ⟨rest, rfl, _⟩ := leads_of_mem_walkFrom hwalk
      simp at heq
    · rw [List.nodup_flatMap]
      refine ⟨fun e _ => ih _ _, ?_⟩
      have hdistinct : (d.entries id).Pairwise fun e e' => e.1 ≠ e'.1 :=
        List.pairwise_map.1 (h.keys_nodup id)
      refine hdistinct.imp fun {e e'} hne => ?_
      -- the ways below two entries differ in the keys of the entries
      intro more hin hin'
      obtain ⟨⟨last, more⟩, hwalk, rfl⟩ := List.mem_map.1 hin
      obtain ⟨⟨last', more'⟩, hwalk', heq⟩ := List.mem_map.1 hin'
      obtain ⟨rest, rfl, _⟩ := leads_of_mem_walkFrom hwalk
      obtain ⟨rest', rfl, _⟩ := leads_of_mem_walkFrom hwalk'
      simp at heq
      exact hne heq.1.symm

namespace IsTree

theorem mem_walk_iff (h : d.IsTree n) : (id, keys) ∈ d.walk ↔ d.Leads d.root keys id := by
  constructor
  · intro hmem
    obtain ⟨rest, rfl, hleads⟩ := leads_of_mem_walkFrom hmem
    exact hleads
  · intro hleads
    exact h.mem_walkFrom h.enough_root hleads

/-- A walk finds every cell once. -/
theorem order_nodup (h : d.IsTree n) : d.order.Nodup := by
  have hkeys : (d.walk.map (·.2)).Nodup := h.walkFrom_keys_nodup _ _ _
  refine List.Nodup.map_on ?_ (List.Nodup.of_map _ hkeys)
  rintro ⟨id, keys⟩ hid ⟨id', more⟩ hid' heq
  obtain rfl : id = id' := heq
  rw [h.leads_unique (h.mem_walk_iff.1 hid) (h.mem_walk_iff.1 hid')]

theorem mem_order_iff (h : d.IsTree n) : id ∈ d.order ↔ ∃ keys, d.Leads d.root keys id := by
  rw [order, List.mem_map]
  constructor
  · rintro ⟨⟨id, keys⟩, hmem, rfl⟩
    exact ⟨keys, h.mem_walk_iff.1 hmem⟩
  · rintro ⟨keys, hleads⟩
    exact ⟨(id, keys), h.mem_walk_iff.2 hleads, rfl⟩

/-- A walk finds the keys that lead to a cell. -/
theorem lookup_walk_iff (h : d.IsTree n) : d.walk.lookup id = some keys ↔ d.Leads d.root keys id := by
  constructor
  · intro hlookup
    obtain ⟨before, after, heq, _⟩ := List.lookup_eq_some_iff.1 hlookup
    refine h.mem_walk_iff.1 ?_
    rw [heq]
    simp
  · intro hleads
    rcases hlookup : d.walk.lookup id with _ | more
    · have hmem := h.mem_walk_iff.2 hleads
      have hnone := List.lookup_eq_none_iff.1 hlookup _ hmem
      simp at hnone
    · obtain ⟨before, after, heq, _⟩ := List.lookup_eq_some_iff.1 hlookup
      have hmore : (id, more) ∈ d.walk := by rw [heq]; simp
      rw [h.leads_unique (h.mem_walk_iff.1 hmore) hleads]

end IsTree

end Draft

/-! ### Slots -/

theorem Content.entries_of_slot? {c : Content} {owner id : Nat} {s : Slot}
    (h : c.slot? owner id = some s) : s.owner = owner ∧ (s.key, id) ∈ c.entries := by
  rcases c with members | items | _ | _
  · obtain ⟨m, hfind, rfl⟩ := Option.map_eq_some_iff.1 h
    have hid : m.2 = id := by simpa using List.find?_some hfind
    refine ⟨rfl, List.mem_map.2 ⟨m, List.mem_of_find?_eq_some hfind, ?_⟩⟩
    rw [← hid]
    rfl
  · obtain ⟨index, hindex, rfl⟩ := Option.map_eq_some_iff.1 h
    refine ⟨rfl, List.mem_map.2 ⟨(id, index), ?_, rfl⟩⟩
    rw [List.mem_zipIdx_iff_getElem?]
    obtain ⟨hlt, hget, _⟩ := List.idxOf?_eq_some_iff.1 hindex
    rw [List.getElem?_eq_getElem hlt, hget]
  · simp [slot?] at h
  · simp [slot?] at h

theorem Content.exists_slot? {c : Content} {id : Nat} {e : Key × Nat} (owner : Nat)
    (h : e ∈ c.entries) (he : e.2 = id) : ∃ s, c.slot? owner id = some s := by
  rcases c with members | items | _ | _
  · obtain ⟨m, hm, rfl⟩ := List.mem_map.1 h
    rcases hfind : members.find? fun m => m.2 == id with _ | found
    · have := List.find?_eq_none.1 hfind m hm
      simp_all
    · exact ⟨.member owner found.1, by simp [slot?, hfind]⟩
  · obtain ⟨⟨item, index⟩, hitem, rfl⟩ := List.mem_map.1 h
    obtain rfl : item = id := he
    have hmem : item ∈ items := by
      rw [List.mem_zipIdx_iff_getElem?] at hitem
      exact List.mem_of_getElem? hitem
    rcases hindex : items.idxOf? item with _ | found
    · exact absurd hmem (List.idxOf?_eq_none_iff.1 hindex)
    · exact ⟨.item owner found, by simp [slot?, hindex]⟩
  · simp [entries] at h
  · simp [entries] at h

namespace Draft

variable {d : Draft} {n id owner : Nat} {key : Key} {keys : List Key} {s : Slot}

/-- The slot of a cell names it. -/
theorem mem_entries_of_slot? (h : d.slot? id = some s) : (s.key, id) ∈ d.entries s.owner := by
  obtain ⟨⟨cell, owner⟩, hmem, hslot⟩ := List.exists_of_findSome?_eq_some h
  rw [List.mem_zipIdx_iff_getElem?, Array.getElem?_toList] at hmem
  obtain ⟨rfl, hentry⟩ := Content.entries_of_slot? hslot
  rw [entries, content?, hmem]
  exact hentry

theorem exists_slot?_of_mem (h : (key, id) ∈ d.entries owner) : ∃ s, d.slot? id = some s := by
  have hsome : (d.slot? id).isSome := by
    rw [slot?, List.findSome?_isSome_iff]
    rcases hcell : d.cells[owner]? with _ | cell
    · simp [entries, content?, hcell] at h
    · refine ⟨(cell, owner), ?_, ?_⟩
      · rw [List.mem_zipIdx_iff_getElem?, Array.getElem?_toList]
        exact hcell
      · have hentry : (key, id) ∈ cell.content.entries := by
          simpa [entries, content?, hcell] using h
        obtain ⟨s, hs⟩ := Content.exists_slot? owner hentry rfl
        simp [hs]
  exact Option.isSome_iff_exists.1 hsome

/-- The slot of a cell in a tree is the one place that names it. -/
theorem IsTree.slot?_of_mem (h : d.IsTree n) (he : (key, id) ∈ d.entries owner) :
    ∃ s, d.slot? id = some s ∧ s.owner = owner ∧ s.key = key := by
  obtain ⟨s, hs⟩ := exists_slot?_of_mem he
  obtain ⟨howner, hentry⟩ := h.unique (mem_entries_of_slot? hs) he rfl
  exact ⟨s, hs, howner, congrArg Prod.fst hentry⟩

theorem isAttached_of_leads (h : d.Leads d.root keys id) : d.isAttached id = true := by
  rcases keys.eq_nil_or_concat' with rfl | ⟨keys, key, rfl⟩
  · rcases h with _ | _
    simp [isAttached]
  · obtain ⟨owner, _, he⟩ := h.exists_owner
    obtain ⟨s, hs⟩ := exists_slot?_of_mem he
    simp [isAttached, hs]

end Draft

end DocQuery
