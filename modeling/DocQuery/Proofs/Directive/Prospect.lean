/-
What a draft has become and what it is going to be.

* `liesIn_pendingPaths` — the place of a directive that is not settled is one of those still to
  change, or lies inside one;
* `Draft.IsTree.freezeFrom_agrees` — the value of a cell before and after such directives have been
  settled is the same but for these places;
* `Workshop.context_agrees` — so formulas are evaluated in contexts that agree.

Design notes: an object in which members are copied and an array into which items are merged are
such places as a whole. Every other container only loses entries, and those are the cells of
directives.
-/
import DocQuery.Proofs.Directive.Invariant
import DocQuery.Proofs.Draft.Frozen
import DocQuery.Proofs.Formula.Steadiness

namespace DocQuery

open Workshop (State)

variable {w : Workshop} {n : Nat} {d d' : Draft} {x : Directive} {xs : List Directive}

/-! ### Places still to change -/

theorem mem_pendingPaths {keys : List Key} {p : Path} (h : d.IsTree n) (hx : x ∈ xs)
    (hleads : d.Leads d.root keys x.cell) (hp : x.action.changes ⟨w.id, keys⟩ = some p) :
    p ∈ pendingPaths w d xs := by
  rw [pendingPaths, List.mem_filterMap]
  refine ⟨x, hx, ?_⟩
  rw [h.lookup_walk_iff.2 hleads, Option.bind_some, hp]

/-- The container of a directive that adds entries is still to change. -/
theorem mem_pendingPaths_of_grows {keys : List Key} {key : Key} (h : d.IsTree n) (hx : x ∈ xs)
    (hgrows : x.action.grows) (hleads : d.Leads d.root (keys ++ [key]) x.cell) :
    ⟨w.id, keys⟩ ∈ pendingPaths w d xs := by
  refine mem_pendingPaths h hx hleads ?_
  have hparent : Path.parent? ⟨w.id, keys ++ [key]⟩ = some ⟨w.id, keys⟩ := by
    simp [Path.parent?]
  rcases x with ⟨cell, action⟩
  cases action with
  | copyFields f => exact hparent
  | merge f => exact hparent
  | value f => simp [Action.grows] at hgrows
  | interpolate parts => simp [Action.grows] at hgrows

theorem liesIn_pendingPaths {keys : List Key} (h : d.IsTree n) (hfits : ∀ x ∈ xs, x.Fits n d)
    (hx : x ∈ xs) (hleads : d.Leads d.root keys x.cell) :
    Path.LiesIn (pendingPaths w d xs) ⟨w.id, keys⟩ := by
  rcases hgrows : x.action.grows
  · refine ⟨⟨w.id, keys⟩, mem_pendingPaths h hx hleads ?_, rfl, List.prefix_rfl⟩
    rcases x with ⟨cell, action⟩
    cases action with
    | copyFields f => simp [Action.grows] at hgrows
    | merge f => simp [Action.grows] at hgrows
    | value f => rfl
    | interpolate parts => rfl
  · rcases keys.eq_nil_or_concat' with rfl | ⟨keys, key, rfl⟩
    · -- only the root is at the end of no keys, and it is no entry
      have hroot := h.leads_target hleads (.here d.root)
      exact absurd hroot ((hfits x hx).off_root hgrows)
    · exact ⟨_, mem_pendingPaths_of_grows h hx hgrows hleads, rfl, List.prefix_append _ _⟩

/-! ### Values before and after -/

section Entries

variable {first fuel fuel' : Nat} {pending : List Path} {path : Path}

/-- Members agree, if the cells that are in both do. -/
theorem membersAgree_of_edited {members members' : List (String × Nat)}
    (hedit : Edited (·.2) xs first members members')
    (hgone : ∀ m ∈ members, ∀ x ∈ xs, x.cell = m.2 →
      (path.member m.1).LiesIn pending ∧ ¬ x.action.grows)
    (hkept : ∀ m ∈ members, m ∈ members' → Node.Agrees pending
      (d.freezeFrom fuel (path.member m.1) m.2) (d'.freezeFrom fuel' (path.member m.1) m.2)) :
    MembersAgree pending (members.map fun m => (m.1, d.freezeFrom fuel (path.member m.1) m.2))
      (members'.map fun m => (m.1, d'.freezeFrom fuel' (path.member m.1) m.2)) := by
  induction hedit with
  | nil => exact .nil
  | @keep m members members' _ ih =>
    rw [List.map_cons, List.map_cons]
    refine .cons (hkept m List.mem_cons_self List.mem_cons_self) (ih ?_ ?_)
    · exact fun m' hm' => hgone m' (List.mem_cons_of_mem m hm')
    · exact fun m' hm' hm'' =>
        hkept m' (List.mem_cons_of_mem m hm') (List.mem_cons_of_mem m hm'')
  | @swap x m members members' more hx hcell _ hmore _ ih =>
    -- the directive adds nothing, so its member is gone
    obtain ⟨hlies, hgrows⟩ := hgone m List.mem_cons_self x hx hcell
    obtain rfl := hmore.resolve_right hgrows
    rw [List.map_cons, List.nil_append]
    refine .gone ?_ (ih ?_ ?_)
    · rwa [Draft.path_freezeFrom]
    · exact fun m' hm' => hgone m' (List.mem_cons_of_mem m hm')
    · exact fun m' hm' hm'' => hkept m' (List.mem_cons_of_mem m hm') hm''

/-- Items agree up to the first one of a directive, if the cells that are in both do. -/
theorem nodesAgree_of_edited {items items' : List Nat} (hedit : Edited id xs first items items')
    (k : Nat)
    (hgone : ∀ i ∈ items.zipIdx k, ∀ x ∈ xs, x.cell = i.1 → (path.item i.2).LiesIn pending)
    (hkept : ∀ i ∈ items.zipIdx k, i ∈ items'.zipIdx k → Node.Agrees pending
      (d.freezeFrom fuel (path.item i.2) i.1) (d'.freezeFrom fuel' (path.item i.2) i.1)) :
    NodesAgree pending ((items.zipIdx k).map fun i => d.freezeFrom fuel (path.item i.2) i.1)
      ((items'.zipIdx k).map fun i => d'.freezeFrom fuel' (path.item i.2) i.1) := by
  induction hedit generalizing k with
  | nil => exact .nil
  | @keep item items items' _ ih =>
    rw [List.zipIdx_cons] at hgone hkept ⊢
    rw [List.zipIdx_cons] at hkept ⊢
    rw [List.map_cons, List.map_cons]
    refine .cons (hkept _ List.mem_cons_self List.mem_cons_self) (ih (k + 1) ?_ ?_)
    · exact fun i hi => hgone i (List.mem_cons_of_mem _ hi)
    · exact fun i hi hi' => hkept i (List.mem_cons_of_mem _ hi) (List.mem_cons_of_mem _ hi')
  | @swap x item items items' more hx hcell _ _ _ _ =>
    -- nothing is said of the items from here on, since their positions may change
    rw [List.zipIdx_cons] at hgone ⊢
    rw [List.map_cons]
    refine .cut ?_
    rw [Draft.path_freezeFrom]
    exact hgone _ List.mem_cons_self x hx hcell

end Entries

namespace Draft

section Step

variable {id fuel fuel' : Nat} {keys : List Key} {key : Key}

/-- In a container that is not changed as a whole, no directive adds entries. -/
theorem IsTree.not_grows_of_entry (h : d.IsTree n)
    (hlies : ¬ Path.LiesIn (pendingPaths w d xs) ⟨w.id, keys⟩) (hleads : d.Leads d.root keys id)
    (hx : x ∈ xs) (he : (key, x.cell) ∈ d.entries id) : ¬ x.action.grows := by
  intro hgrows
  have hpending := mem_pendingPaths_of_grows (w := w) h hx hgrows (hleads.snoc he)
  exact hlies ⟨_, hpending, rfl, List.prefix_rfl⟩

/-- The value of a container is the same before and after, if those of its entries are and it is not
changed as a whole. -/
theorem IsTree.freezeFrom_succ_agrees (h : d.IsTree n) (h' : d'.IsTree n) (hedit : d.EditedBy xs d')
    (hfits : ∀ x ∈ xs, x.Fits n d) (hleads : d.Leads d.root keys id)
    (hlies : ¬ Path.LiesIn (pendingPaths w d xs) ⟨w.id, keys⟩)
    (hkept : ∀ key child, (key, child) ∈ d.entries id → (key, child) ∈ d'.entries id →
      Node.Agrees (pendingPaths w d xs) (d.freezeFrom fuel ⟨w.id, keys ++ [key]⟩ child)
        (d'.freezeFrom fuel' ⟨w.id, keys ++ [key]⟩ child)) :
    Node.Agrees (pendingPaths w d xs) (d.freezeFrom (fuel + 1) ⟨w.id, keys⟩ id)
      (d'.freezeFrom (fuel' + 1) ⟨w.id, keys⟩ id) := by
  -- the cell is that of no directive, so it holds what it held but for entries that are gone
  have hne : ∀ x ∈ xs, x.cell ≠ id := by
    rintro x hx rfl
    exact hlies (liesIn_pendingPaths h hfits hx hleads)
  have hown : ∀ x ∈ xs, ∀ key child, (key, child) ∈ d.entries id → x.cell = child →
      Path.LiesIn (pendingPaths w d xs) ⟨w.id, keys ++ [key]⟩ ∧ ¬ x.action.grows := by
    rintro x hx key child he rfl
    exact ⟨liesIn_pendingPaths h hfits hx (hleads.snoc he),
      h.not_grows_of_entry hlies hleads hx he⟩
  obtain ⟨c, hc⟩ := h.exists_content hleads
  obtain ⟨c', hc', hcontent⟩ := hedit.content hc hne
  rw [entries_of_content? hc] at hown hkept
  rw [entries_of_content? hc'] at hkept
  cases hcontent with
  | @object members members' hmembers =>
    have hentry : ∀ {m : String × Nat} {ms : List (String × Nat)}, m ∈ ms →
        (Key.member m.1, m.2) ∈ (Content.object ms).entries := fun hm =>
      List.mem_map_of_mem (f := fun m => (Key.member m.1, m.2)) hm
    rw [h.freezeFrom_object hc, h'.freezeFrom_object hc']
    refine .object ?_ (membersAgree_of_edited hmembers ?_ ?_)
    · intro m hm
      obtain ⟨m, _, rfl⟩ := List.mem_map.1 hm
      exact ⟨.member m.1, path_freezeFrom ..⟩
    · exact fun m hm x hx hcell => hown x hx _ _ (hentry hm) hcell
    · exact fun m hm hm' => hkept _ _ (hentry hm) (hentry hm')
  | @array items items' hitems =>
    have hentry : ∀ {i : Nat × Nat} {is : List Nat}, i ∈ is.zipIdx →
        (Key.item i.2, i.1) ∈ (Content.array is).entries := fun hi =>
      List.mem_map_of_mem (f := fun i => (Key.item i.2, i.1)) hi
    rw [freezeFrom_array hc, freezeFrom_array hc']
    refine .array ?_ (nodesAgree_of_edited hitems 0 ?_ ?_)
    · intro m hm
      obtain ⟨i, _, rfl⟩ := List.mem_map.1 hm
      exact ⟨.item i.2, path_freezeFrom ..⟩
    · exact fun i hi x hx hcell => (hown x hx _ _ (hentry hi) hcell).1
    · exact fun i hi hi' => hkept _ _ (hentry hi) (hentry hi')
  | scalar s =>
    rw [freezeFrom_scalar hc, freezeFrom_scalar hc']
    exact .same _
  | imported v =>
    rw [freezeFrom_imported hc, freezeFrom_imported hc']
    exact .same _

end Step

/-- The value of a cell is the same before and after the directives `xs` have been settled, but for
the places that they change. -/
theorem IsTree.freezeFrom_agrees (h : d.IsTree n) (h' : d'.IsTree n) (hedit : d.EditedBy xs d')
    (hfits : ∀ x ∈ xs, x.Fits n d) {fuel fuel' id : Nat} {keys : List Key}
    (hf : Enough n d fuel id) (hf' : Enough n d' fuel' id) (hleads : d.Leads d.root keys id) :
    Node.Agrees (pendingPaths w d xs) (d.freezeFrom fuel ⟨w.id, keys⟩ id)
      (d'.freezeFrom fuel' ⟨w.id, keys⟩ id) := by
  -- the induction is on the fuel before, and there is as much of it as the way down needs
  induction fuel generalizing fuel' id keys with
  | zero => exact absurd hf.1 (by omega)
  | succ fuel ih =>
    obtain ⟨fuel', rfl⟩ := Nat.exists_eq_succ_of_ne_zero (Nat.pos_iff_ne_zero.1 hf'.1)
    by_cases hlies : Path.LiesIn (pendingPaths w d xs) ⟨w.id, keys⟩
    · refine .unsettled ?_
      rwa [path_freezeFrom]
    · refine h.freezeFrom_succ_agrees h' hedit hfits hleads hlies fun key child he he' => ?_
      exact ih (h.enough_child hf he) (h'.enough_child hf' he') (hleads.snoc he)

end Draft

/-- Before and after directives have been settled, contexts agree but for the places that these
change. -/
theorem Workshop.context_agrees (h : d.IsTree n) (h' : d'.IsTree n) (hedit : d.EditedBy xs d')
    (hfits : ∀ x ∈ xs, x.Fits n d) :
    (w.context d).Agrees (pendingPaths w d xs) (w.context d') where
  id_eq := rfl
  root := by
    have henough := h'.enough_root
    have hagrees := h.freezeFrom_agrees (w := w) h' hedit hfits h.enough_root
      (hedit.root_eq ▸ henough) (.here d.root)
    show Node.Agrees _ (d.freeze w.id) (d'.freeze w.id)
    rw [Draft.freeze, Draft.freeze, hedit.root_eq]
    exact hagrees
  ancestors_eq := rfl
  options_eq := rfl
  now_eq := rfl
  bindings := .nil

end DocQuery
