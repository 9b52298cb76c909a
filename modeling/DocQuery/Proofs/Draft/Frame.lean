/-
What a change of one cell leaves as it was.

* `Node.ChangedAt` — a value in which only what stands at one place has changed;
* `Draft.ChangedIn` — a draft in which only one of the old cells has changed;
* `Draft.IsTree.freezeFrom_congr` — the value of a cell is made from the cells below it only;
* `Draft.IsTree.freezeFrom_below` — what a changed container still holds has the value that it had;
* `Draft.IsTree.changedAt_freeze` — so the value that a draft has become changes only where keys
  lead to the changed cell.

Design notes: a container above the changed cell keeps all its other entries, and in a tree no way
down from one of these leads to the changed cell.
-/
import DocQuery.Proofs.Draft.Frozen

namespace DocQuery

/-- A value in which nothing has changed but what stands where the keys lead, and this as `change`
says. -/
inductive Node.ChangedAt (change : Node → Node → Prop) : List Key → Node → Node → Prop
  | here {n n' : Node} : change n n' → ChangedAt change [] n n'
  | member (p : Place) {name : String} {keys : List Key} {before after : List (String × Node)}
    {n n' : Node} : ChangedAt change keys n n' →
      ChangedAt change (.member name :: keys) (.object p (before ++ (name, n) :: after))
        (.object p (before ++ (name, n') :: after))
  | item (p : Place) {index : Nat} {keys : List Key} {before after : List Node} {n n' : Node} :
    before.length = index → ChangedAt change keys n n' →
      ChangedAt change (.item index :: keys) (.array p (before ++ n :: after))
        (.array p (before ++ n' :: after))

namespace Draft

/-- Whether the old cells of a draft hold what they held, but for one of them. -/
structure ChangedIn (changed : Nat) (d d' : Draft) : Prop where
  root_eq : d'.root = d.root
  content?_eq : ∀ {id c}, id ≠ changed → d.content? id = some c → d'.content? id = some c

variable {d d' : Draft} {n id fuel fuel' changed : Nat} {path : Path} {key : Key} {keys : List Key}

theorem freezeFrom_none (hc : d.content? id = none) :
    d.freezeFrom fuel path id = .null path := by
  rcases fuel with _ | fuel
  · rfl
  · rw [freezeFrom, hc]

/-- The value of a cell is the same in two drafts that have the same cells below it. -/
theorem IsTree.freezeFrom_congr (h : d.IsTree n) (h' : d'.IsTree n) (hf : Enough n d fuel id)
    (hf' : Enough n d' fuel' id)
    (hsame : ∀ keys child, d.Leads id keys child → d'.content? child = d.content? child) :
    d'.freezeFrom fuel' path id = d.freezeFrom fuel path id := by
  induction fuel generalizing fuel' path id with
  | zero => exact absurd hf.1 (by omega)
  | succ fuel ih =>
    obtain ⟨fuel', rfl⟩ := Nat.exists_eq_succ_of_ne_zero (Nat.pos_iff_ne_zero.1 hf'.1)
    have hcontent := hsame [] id (.here id)
    have hentry : ∀ key child path, (key, child) ∈ d.entries id →
        d'.freezeFrom fuel' path child = d.freezeFrom fuel path child := by
      intro key child path he
      have he' : (key, child) ∈ d'.entries id := by
        rw [entries, hcontent]
        exact he
      refine ih (h.enough_child hf he) (h'.enough_child hf' he') fun keys last hleads => ?_
      exact hsame (key :: keys) last (.down he hleads)
    rcases hc : d.content? id with _ | c
    · rw [freezeFrom_none hc, freezeFrom_none (hcontent.trans hc)]
    · rw [hc] at hcontent
      rw [entries_of_content? hc] at hentry
      cases c with
      | object members =>
        rw [h.freezeFrom_object hc, h'.freezeFrom_object hcontent]
        congr 1
        refine List.map_congr_left fun m hm => ?_
        rw [hentry (.member m.1) m.2 _ (List.mem_map.2 ⟨m, hm, rfl⟩)]
      | array items =>
        rw [freezeFrom_array hc, freezeFrom_array hcontent]
        congr 1
        refine List.map_congr_left fun i hi => ?_
        rw [hentry (.item i.2) i.1 _ (List.mem_map.2 ⟨i, hi, rfl⟩)]
      | scalar s => rw [freezeFrom_scalar hc, freezeFrom_scalar hcontent]
      | imported v => rw [freezeFrom_imported hc, freezeFrom_imported hcontent]

namespace IsTree

/-- No way down from another entry of a container leads to what is below an entry. -/
theorem ne_of_leads_beside (h : d.IsTree n) {above below keys' : List Key} {owner child last : Nat}
    {e : Key × Nat} (habove : d.Leads d.root above owner) (he : (key, child) ∈ d.entries owner)
    (hbelow : d.Leads child below changed) (he' : e ∈ d.entries owner) (hne : e.1 ≠ key)
    (hleads : d.Leads e.2 keys' last) : last ≠ changed := by
  rintro rfl
  have hways := h.leads_unique (habove.trans (.down he hbelow)) (habove.trans (.down he' hleads))
  exact hne (List.cons.inj (List.append_cancel_left hways)).1.symm

/-- What a changed container holds before and after the change has the same value before and after.
-/
theorem freezeFrom_below (h : d.IsTree n) (h' : d'.IsTree n) (hedit : d.ChangedIn changed d')
    {above : List Key} (habove : d.Leads d.root above changed) (hf : Enough n d (fuel + 1) changed)
    (hf' : Enough n d' (fuel' + 1) changed) {child : Nat}
    (he : child ∈ (d.entries changed).map (·.2)) (he' : child ∈ (d'.entries changed).map (·.2))
    (path : Path) : d'.freezeFrom fuel' path child = d.freezeFrom fuel path child := by
  obtain ⟨⟨key, _⟩, hin, rfl⟩ := List.mem_map.1 he
  obtain ⟨e', hin', heq⟩ := List.mem_map.1 he'
  refine h.freezeFrom_congr h' (h.enough_child hf hin) (heq ▸ h'.enough_child hf' hin') ?_
  intro keys last hleads
  have hne : last ≠ changed := by
    rintro rfl
    have hways := h.leads_unique habove (habove.trans (.down hin hleads))
    simp at hways
  obtain ⟨c, hc⟩ := h.exists_content (habove.trans (.down hin hleads))
  rw [hc, hedit.content?_eq hne hc]

/-- The value of an object changes only at the member whose value changes. -/
theorem changedAt_member (h : d.IsTree n) (h' : d'.IsTree n) {change : Node → Node → Prop}
    {name : String} {child : Nat} {before after : List (String × Nat)}
    (hc : d.content? id = some (.object (before ++ (name, child) :: after)))
    (hc' : d'.content? id = some (.object (before ++ (name, child) :: after)))
    (hkept : ∀ e ∈ d.entries id, e.1 ≠ .member name → ∀ path,
      d'.freezeFrom fuel' path e.2 = d.freezeFrom fuel path e.2)
    (hchild : Node.ChangedAt change keys (d.freezeFrom fuel (path.member name) child)
      (d'.freezeFrom fuel' (path.member name) child)) :
    Node.ChangedAt change (.member name :: keys) (d.freezeFrom (fuel + 1) path id)
      (d'.freezeFrom (fuel' + 1) path id) := by
  rw [entries_of_content? hc] at hkept
  -- names differ, so the members before and behind have other names
  have hnames := h.names_nodup hc
  rw [List.map_append, List.map_cons, List.nodup_append, List.nodup_cons] at hnames
  have hside : ∀ m, (m ∈ before ∨ m ∈ after) →
      (m.1, d'.freezeFrom fuel' (path.member m.1) m.2) =
        (m.1, d.freezeFrom fuel (path.member m.1) m.2) := by
    intro m hm
    have hname : m.1 ≠ name := by
      rintro rfl
      rcases hm with hm | hm
      · exact hnames.2.2 _ (List.mem_map_of_mem hm) _ List.mem_cons_self rfl
      · exact hnames.2.1.1 (List.mem_map.2 ⟨m, hm, rfl⟩)
    have hin : m ∈ before ++ (name, child) :: after := by
      rw [List.mem_append, List.mem_cons]
      exact hm.imp_right .inr
    have hentry := hkept (.member m.1, m.2) (List.mem_map.2 ⟨m, hin, rfl⟩)
      (fun heq => hname (Key.member.inj heq)) (path.member m.1)
    rw [hentry]
  rw [h.freezeFrom_object hc, h'.freezeFrom_object hc', List.map_append, List.map_cons,
    List.map_append, List.map_cons, List.map_congr_left fun m hm => hside m (.inl hm),
    List.map_congr_left fun m hm => hside m (.inr hm)]
  exact .member _ hchild

/-- The value of an array changes only at the item whose value changes. -/
theorem changedAt_item {change : Node → Node → Prop} {child : Nat} {before after : List Nat}
    (hc : d.content? id = some (.array (before ++ child :: after)))
    (hc' : d'.content? id = some (.array (before ++ child :: after)))
    (hkept : ∀ e ∈ d.entries id, e.1 ≠ .item before.length → ∀ path,
      d'.freezeFrom fuel' path e.2 = d.freezeFrom fuel path e.2)
    (hchild : Node.ChangedAt change keys (d.freezeFrom fuel (path.item before.length) child)
      (d'.freezeFrom fuel' (path.item before.length) child)) :
    Node.ChangedAt change (.item before.length :: keys) (d.freezeFrom (fuel + 1) path id)
      (d'.freezeFrom (fuel' + 1) path id) := by
  rw [entries_of_content? hc] at hkept
  have hside : ∀ i ∈ (before ++ child :: after).zipIdx, i.2 ≠ before.length →
      d'.freezeFrom fuel' (path.item i.2) i.1 = d.freezeFrom fuel (path.item i.2) i.1 := by
    intro i hi hne
    exact hkept (.item i.2, i.1) (List.mem_map.2 ⟨i, hi, rfl⟩)
      (fun heq => hne (Key.item.inj heq)) (path.item i.2)
  rw [List.zipIdx_append, List.zipIdx_cons, Nat.zero_add] at hside
  have hleft := List.map_congr_left fun i (hi : i ∈ before.zipIdx) => by
    refine hside i (List.mem_append_left _ hi) ?_
    have hlt := List.snd_lt_of_mem_zipIdx hi
    omega
  have hright := List.map_congr_left fun i (hi : i ∈ after.zipIdx (before.length + 1)) => by
    refine hside i (List.mem_append_right _ (List.mem_cons_of_mem _ hi)) ?_
    have hle := List.le_snd_of_mem_zipIdx hi
    omega
  rw [freezeFrom_array hc, freezeFrom_array hc', List.zipIdx_append, List.zipIdx_cons,
    Nat.zero_add, List.map_append, List.map_cons, List.map_append, List.map_cons, hleft, hright]
  exact .item _ (by simp) hchild

/-- The value of a container changes only at the entry whose value changes. -/
theorem changedAt_freezeFrom_entry (h : d.IsTree n) (h' : d'.IsTree n)
    {change : Node → Node → Prop} (hf : Enough n d (fuel + 1) id)
    (hf' : Enough n d' (fuel' + 1) id) {child : Nat} (he : (key, child) ∈ d.entries id)
    (hcontent : d'.content? id = d.content? id)
    (hbeside : ∀ e ∈ d.entries id, e.1 ≠ key → ∀ keys last, d.Leads e.2 keys last →
      d'.content? last = d.content? last)
    (hchild : Node.ChangedAt change keys (d.freezeFrom fuel (path.child key) child)
      (d'.freezeFrom fuel' (path.child key) child)) :
    Node.ChangedAt change (key :: keys) (d.freezeFrom (fuel + 1) path id)
      (d'.freezeFrom (fuel' + 1) path id) := by
  have hkept : ∀ e ∈ d.entries id, e.1 ≠ key → ∀ path,
      d'.freezeFrom fuel' path e.2 = d.freezeFrom fuel path e.2 := by
    intro e hin hne path
    have hin' : e ∈ d'.entries id := by
      rw [entries, hcontent]
      exact hin
    exact h.freezeFrom_congr h' (h.enough_child hf hin) (h'.enough_child hf' hin')
      (hbeside e hin hne)
  cases key with
  | member name =>
    obtain ⟨before, after, hc⟩ := exists_members_of_entry he
    exact h.changedAt_member h' hc (hcontent.trans hc) hkept hchild
  | item index =>
    obtain ⟨before, after, rfl, hc⟩ := exists_items_of_entry he
    exact changedAt_item hc (hcontent.trans hc) hkept hchild

/-- The value of a cell above the changed one changes only where keys lead to this one. -/
theorem changedAt_freezeFrom (h : d.IsTree n) (h' : d'.IsTree n) (hedit : d.ChangedIn changed d')
    {change : Node → Node → Prop} {document : String} {above : List Key}
    (hf : Enough n d fuel id) (hf' : Enough n d' fuel' id) (habove : d.Leads d.root above id)
    (hleads : d.Leads id keys changed)
    (hchange : ∀ fuel fuel', Enough n d (fuel + 1) changed → Enough n d' (fuel' + 1) changed →
      change (d.freezeFrom (fuel + 1) ⟨document, above ++ keys⟩ changed)
        (d'.freezeFrom (fuel' + 1) ⟨document, above ++ keys⟩ changed)) :
    Node.ChangedAt change keys (d.freezeFrom fuel ⟨document, above⟩ id)
      (d'.freezeFrom fuel' ⟨document, above⟩ id) := by
  -- the induction goes down to the changed cell, and every container on the way stays as it is
  induction hleads generalizing fuel fuel' above with
  | here id =>
    obtain ⟨fuel, rfl⟩ := Nat.exists_eq_succ_of_ne_zero (Nat.pos_iff_ne_zero.1 hf.1)
    obtain ⟨fuel', rfl⟩ := Nat.exists_eq_succ_of_ne_zero (Nat.pos_iff_ne_zero.1 hf'.1)
    rw [List.append_nil] at hchange
    exact .here (hchange fuel fuel' hf hf')
  | @down id child changed key keys he hrest ih =>
    obtain ⟨fuel, rfl⟩ := Nat.exists_eq_succ_of_ne_zero (Nat.pos_iff_ne_zero.1 hf.1)
    obtain ⟨fuel', rfl⟩ := Nat.exists_eq_succ_of_ne_zero (Nat.pos_iff_ne_zero.1 hf'.1)
    have hsame : ∀ {up last}, d.Leads d.root up last → last ≠ changed →
        d'.content? last = d.content? last := by
      intro up last hup hne
      obtain ⟨c, hc⟩ := h.exists_content hup
      rw [hc, hedit.content?_eq hne hc]
    have hcontent : d'.content? id = d.content? id := by
      refine hsame habove ?_
      rintro rfl
      have hways := h.leads_unique habove (habove.trans (.down he hrest))
      simp at hways
    have he' : (key, child) ∈ d'.entries id := by
      rw [entries, hcontent]
      exact he
    refine h.changedAt_freezeFrom_entry h' hf hf' he hcontent ?_ ?_
    · intro e hin hne more last hlast
      exact hsame (habove.trans (.down hin hlast))
        (h.ne_of_leads_beside habove he hrest hin hne hlast)
    · have hchild := ih hedit (h.enough_child hf he) (h'.enough_child hf' he') (habove.snoc he)
      rw [List.append_assoc] at hchild
      exact hchild hchange

/-- What a draft has become changes only where keys lead to the changed cell. -/
theorem changedAt_freeze (h : d.IsTree n) (h' : d'.IsTree n) (hedit : d.ChangedIn changed d')
    {change : Node → Node → Prop} (document : String) (hleads : d.Leads d.root keys changed)
    (hchange : ∀ fuel fuel', Enough n d (fuel + 1) changed → Enough n d' (fuel' + 1) changed →
      change (d.freezeFrom (fuel + 1) ⟨document, keys⟩ changed)
        (d'.freezeFrom (fuel' + 1) ⟨document, keys⟩ changed)) :
    Node.ChangedAt change keys (d.freeze document) (d'.freeze document) := by
  have henough := h'.enough_root
  rw [hedit.root_eq] at henough
  rw [freeze, freeze, hedit.root_eq]
  exact h.changedAt_freezeFrom h' hedit h.enough_root henough (.here d.root) hleads hchange

end IsTree

end Draft

end DocQuery
