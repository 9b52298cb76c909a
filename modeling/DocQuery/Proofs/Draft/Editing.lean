/-
What the results of directives do to a draft.

* `Edited` — a list in which the entries of some cells have given way to others;
* `Draft.EditedBy` — a draft in which nothing but the cells of some directives and what sits in
  their places has changed;
* `Draft.EditedBy.trans` — several such changes make one;
* `Draft.EditedBy.exists_leads` — keys still lead to every other cell, with the same names.

Design notes: an entry gives way to new cells only if its directive copies members or merges items,
so that an object or an array without such a directive only ever loses entries.
-/
import Mathlib.Data.List.Forall2
import Mathlib.Data.List.Range
import DocQuery.Directive.Apply
import DocQuery.Proofs.Draft.Planting

namespace DocQuery

/-- Whether an action puts other entries into the container around it. -/
def Action.grows : Action → Bool
  | copyFields _ | merge _ => true
  | value _ | interpolate _ => false

/-- Whether two keys are the same name, or both count items. -/
inductive Key.Alike : Key → Key → Prop
  | member (name : String) : Alike (.member name) (.member name)
  | item (i j : Nat) : Alike (.item i) (.item j)

theorem Key.Alike.refl : (key : Key) → key.Alike key
  | .member name => .member name
  | .item i => .item i i

theorem Key.Alike.trans {a b c : Key} (h : a.Alike b) (h' : b.Alike c) : a.Alike c := by
  cases h with
  | member name => exact h'
  | item i j =>
    cases h' with
    | item _ l => exact .item i l

/-- Whether two ways are the same but for the positions of items. -/
abbrev AlikeKeys : List Key → List Key → Prop := List.Forall₂ Key.Alike

theorem AlikeKeys.refl : (keys : List Key) → AlikeKeys keys keys
  | [] => .nil
  | key :: keys => .cons (.refl key) (refl keys)

theorem AlikeKeys.trans {a b c : List Key} (h : AlikeKeys a b) (h' : AlikeKeys b c) :
    AlikeKeys a c := by
  induction h generalizing c with
  | nil => exact h'
  | cons hkey _ ih =>
    cases h' with
    | cons hkey' hrest => exact .cons (hkey.trans hkey') (ih hrest)

/-! ### Edited lists -/

/-- A list in which the entries of the cells of `xs` may be gone, or have given way to entries of
cells that are numbered from `first` on. -/
inductive Edited {α : Type} (idOf : α → Nat) (xs : List Directive) (first : Nat) :
    List α → List α → Prop
  | nil : Edited idOf xs first [] []
  | keep (a : α) {as bs : List α} : Edited idOf xs first as bs →
    Edited idOf xs first (a :: as) (a :: bs)
  | swap {x : Directive} {a : α} {as bs more : List α} : x ∈ xs → x.cell = idOf a →
    (∀ b ∈ more, first ≤ idOf b) → (more = [] ∨ x.action.grows) → Edited idOf xs first as bs →
      Edited idOf xs first (a :: as) (more ++ bs)

namespace Edited

variable {α : Type} {idOf : α → Nat} {xs ys : List Directive} {first later : Nat}
  {as bs cs : List α}

theorem refl (idOf : α → Nat) (xs : List Directive) (first : Nat) :
    (as : List α) → Edited idOf xs first as as
  | [] => .nil
  | a :: as => .keep a (refl idOf xs first as)

/-- One entry gives way to others. -/
theorem single {x : Directive} {a : α} {before after more : List α} (hx : x ∈ xs)
    (ha : x.cell = idOf a) (hmore : ∀ b ∈ more, first ≤ idOf b)
    (hgrows : more = [] ∨ x.action.grows) :
    Edited idOf xs first (before ++ a :: after) (before ++ more ++ after) := by
  induction before with
  | nil => exact .swap hx ha hmore hgrows (refl ..)
  | cons b before ih => exact .keep b ih

theorem mono (h : Edited idOf xs first as bs) (hsub : xs ⊆ ys) : Edited idOf ys first as bs := by
  induction h with
  | nil => exact .nil
  | keep a _ ih => exact .keep a ih
  | swap hx ha hmore hgrows _ ih => exact .swap (hsub hx) ha hmore hgrows ih

theorem exists_append {as' : List α} (h : Edited idOf xs first (as ++ as') cs) :
    ∃ bs bs', cs = bs ++ bs' ∧ Edited idOf xs first as bs ∧ Edited idOf xs first as' bs' := by
  induction as generalizing cs with
  | nil => exact ⟨[], cs, rfl, .nil, h⟩
  | cons a as ih =>
    cases h with
    | keep _ h =>
      obtain ⟨bs, bs', rfl, hleft, hright⟩ := ih h
      exact ⟨a :: bs, bs', rfl, .keep a hleft, hright⟩
    | @swap x _ _ _ more hx ha hmore hgrows h =>
      obtain ⟨bs, bs', rfl, hleft, hright⟩ := ih h
      exact ⟨more ++ bs, bs', by rw [List.append_assoc], .swap hx ha hmore hgrows hleft, hright⟩

/-- Entries of other cells stay. -/
theorem eq_of_forall_ne (h : Edited idOf xs first as bs)
    (hne : ∀ a ∈ as, ∀ x ∈ xs, x.cell ≠ idOf a) : bs = as := by
  induction h with
  | nil => rfl
  | keep a _ ih => rw [ih fun b hb => hne b (List.mem_cons_of_mem a hb)]
  | swap hx ha _ _ _ _ => exact absurd ha (hne _ List.mem_cons_self _ hx)

/-- Two changes make one. The second one leaves alone what the first one has added. -/
theorem trans (h : Edited idOf xs first as bs) (h' : Edited idOf ys later bs cs)
    (hle : first ≤ later) (hlt : ∀ y ∈ ys, y.cell < first) :
    Edited idOf (xs ++ ys) first as cs := by
  induction h generalizing cs with
  | nil =>
    cases h' with
    | nil => exact .nil
  | keep a _ ih =>
    cases h' with
    | keep _ h' => exact .keep a (ih h')
    | swap hy ha hmore hgrows h' =>
      refine .swap (List.mem_append_right xs hy) ha ?_ hgrows (ih h')
      exact fun b hb => Nat.le_trans hle (hmore b hb)
  | @swap x a as bs more hx ha hmore hgrows _ ih =>
    -- the second change is about old cells, and what the first one has added is new
    obtain ⟨more', bs', rfl, hleft, hright⟩ := h'.exists_append
    have hsame : more' = more := by
      refine hleft.eq_of_forall_ne fun b hb y hy heq => ?_
      have hfresh := hmore b hb
      have hold := hlt y hy
      omega
    rw [hsame]
    exact .swap (List.mem_append_left ys hx) ha hmore hgrows (ih hright)

/-- An entry of another cell stays. -/
theorem mem_of_ne (h : Edited idOf xs first as bs) {a : α} (ha : a ∈ as)
    (hne : ∀ x ∈ xs, x.cell ≠ idOf a) : a ∈ bs := by
  induction h with
  | nil => simp at ha
  | keep b _ ih =>
    rcases List.mem_cons.1 ha with rfl | ha
    · exact List.mem_cons_self
    · exact List.mem_cons_of_mem _ (ih ha)
  | swap hx hcell _ _ _ ih =>
    rcases List.mem_cons.1 ha with rfl | ha
    · exact absurd hcell (hne _ hx)
    · exact List.mem_append_right _ (ih ha)

/-- An entry is an old one or one of a new cell. -/
theorem mem_or_le (h : Edited idOf xs first as bs) {b : α} (hb : b ∈ bs) :
    b ∈ as ∨ first ≤ idOf b := by
  induction h with
  | nil => simp at hb
  | keep a _ ih =>
    rcases List.mem_cons.1 hb with rfl | hb
    · exact .inl List.mem_cons_self
    · exact (ih hb).imp_left (List.mem_cons_of_mem _)
  | swap _ _ hmore _ _ ih =>
    rcases List.mem_append.1 hb with hb | hb
    · exact .inr (hmore b hb)
    · exact (ih hb).imp_left (List.mem_cons_of_mem _)

end Edited

/-- The contents of a cell, of which entries of the cells of `xs` have given way to others. -/
inductive Content.Edited (xs : List Directive) (first : Nat) : Content → Content → Prop
  | object {members members' : List (String × Nat)} :
    DocQuery.Edited (·.2) xs first members members' →
      Content.Edited xs first (.object members) (.object members')
  | array {items items' : List Nat} : DocQuery.Edited id xs first items items' →
    Content.Edited xs first (.array items) (.array items')
  | scalar (s : Scalar) : Content.Edited xs first (.scalar s) (.scalar s)
  | imported (v : Node) : Content.Edited xs first (.imported v) (.imported v)

namespace Content.Edited

variable {xs ys : List Directive} {first later : Nat} {c c' c'' : Content}

theorem refl (xs : List Directive) (first : Nat) : (c : Content) → Content.Edited xs first c c
  | .object _ => .object (.refl ..)
  | .array _ => .array (.refl ..)
  | .scalar s => .scalar s
  | .imported v => .imported v

theorem mono (h : Content.Edited xs first c c') (hsub : xs ⊆ ys) :
    Content.Edited ys first c c' := by
  cases h with
  | object h => exact .object (h.mono hsub)
  | array h => exact .array (h.mono hsub)
  | scalar s => exact .scalar s
  | imported v => exact .imported v

theorem trans (h : Content.Edited xs first c c') (h' : Content.Edited ys later c' c'')
    (hle : first ≤ later) (hlt : ∀ y ∈ ys, y.cell < first) :
    Content.Edited (xs ++ ys) first c c'' := by
  cases h with
  | object h =>
    cases h' with
    | object h' => exact .object (h.trans h' hle hlt)
  | array h =>
    cases h' with
    | array h' => exact .array (h.trans h' hle hlt)
  | scalar s =>
    cases h' with
    | scalar _ => exact .scalar s
  | imported v =>
    cases h' with
    | imported _ => exact .imported v

theorem exists_entry (h : Content.Edited xs first c c') {e : Key × Nat} (he : e ∈ c.entries)
    (hne : ∀ x ∈ xs, x.cell ≠ e.2) : ∃ key, e.1.Alike key ∧ (key, e.2) ∈ c'.entries := by
  cases h with
  | object h =>
    obtain ⟨m, hm, rfl⟩ := List.mem_map.1 he
    exact ⟨.member m.1, .member m.1, List.mem_map.2 ⟨m, h.mem_of_ne hm hne, rfl⟩⟩
  | @array items items' h =>
    obtain ⟨⟨child, index⟩, hitem, rfl⟩ := List.mem_map.1 he
    rw [List.mem_zipIdx_iff_getElem?] at hitem
    have hmem := h.mem_of_ne (List.mem_of_getElem? hitem) hne
    obtain ⟨index', hindex⟩ := List.mem_iff_getElem?.1 hmem
    refine ⟨.item index', .item index index', List.mem_map.2 ⟨(child, index'), ?_, rfl⟩⟩
    rwa [List.mem_zipIdx_iff_getElem?]
  | scalar s => exact ⟨e.1, .refl e.1, he⟩
  | imported v => exact ⟨e.1, .refl e.1, he⟩

theorem entry_or_le (h : Content.Edited xs first c c') {e : Key × Nat} (he : e ∈ c'.entries) :
    (∃ key, (key, e.2) ∈ c.entries) ∨ first ≤ e.2 := by
  cases h with
  | object h =>
    obtain ⟨m, hm, rfl⟩ := List.mem_map.1 he
    exact (h.mem_or_le hm).imp_left fun hm => ⟨.member m.1, List.mem_map.2 ⟨m, hm, rfl⟩⟩
  | array h =>
    obtain ⟨⟨child, index⟩, hitem, rfl⟩ := List.mem_map.1 he
    rw [List.mem_zipIdx_iff_getElem?] at hitem
    refine (h.mem_or_le (List.mem_of_getElem? hitem)).imp_left fun hmem => ?_
    obtain ⟨index', hindex⟩ := List.mem_iff_getElem?.1 hmem
    refine ⟨.item index', List.mem_map.2 ⟨(child, index'), ?_, rfl⟩⟩
    rwa [List.mem_zipIdx_iff_getElem?]
  | scalar s => exact .inl ⟨e.1, he⟩
  | imported v => exact .inl ⟨e.1, he⟩

theorem entries_eq_nil (h : Content.Edited xs first c c') (hc : c.entries = []) :
    c'.entries = [] := by
  cases h with
  | object h =>
    obtain rfl := List.map_eq_nil_iff.1 hc
    cases h with
    | nil => rfl
  | array h =>
    obtain rfl := List.zipIdx_eq_nil_iff.1 (List.map_eq_nil_iff.1 hc)
    cases h with
    | nil => rfl
  | scalar _ => rfl
  | imported _ => rfl

end Content.Edited

namespace Draft

/-! ### Edited drafts -/

/-- Whether nothing has changed from one draft to another but the cells of `xs`, and what sits in
their places. Cells that are new hold finished values, and a cell that names no other never does. -/
structure EditedBy (xs : List Directive) (d d' : Draft) : Prop where
  root_eq : d'.root = d.root
  size_le : d.cells.size ≤ d'.cells.size
  content : ∀ {id c}, d.content? id = some c → (∀ x ∈ xs, x.cell ≠ id) →
    ∃ c', d'.content? id = some c' ∧ Content.Edited xs d.cells.size c c'
  fresh : ∀ {id c}, d.cells.size ≤ id → d'.content? id = some c → ∃ v, c = .imported v
  bare : ∀ {id}, d.entries id = [] → d'.entries id = []

theorem content?_lt_size {d : Draft} {id : Nat} {c : Content} (h : d.content? id = some c) :
    id < d.cells.size := by
  by_contra hge
  rw [content?, Array.getElem?_eq_none (by omega)] at h
  simp at h

namespace EditedBy

variable {xs ys : List Directive} {d d' d'' : Draft} {n : Nat}

theorem refl (xs : List Directive) (d : Draft) : d.EditedBy xs d where
  root_eq := rfl
  size_le := Nat.le_refl _
  content hc _ := ⟨_, hc, .refl ..⟩
  fresh hid hc := by
    have hlt := content?_lt_size hc
    omega
  bare := id

theorem mono (h : d.EditedBy xs d') (hsub : xs ⊆ ys) : d.EditedBy ys d' where
  root_eq := h.root_eq
  size_le := h.size_le
  content hc hne := by
    obtain ⟨c', hc', hedit⟩ := h.content hc fun x hx => hne x (hsub hx)
    exact ⟨c', hc', hedit.mono hsub⟩
  fresh := h.fresh
  bare := h.bare

/-- Two changes make one. -/
theorem trans (h : d.EditedBy xs d') (h' : d'.EditedBy ys d'')
    (hlt : ∀ y ∈ ys, y.cell < d.cells.size) : d.EditedBy (xs ++ ys) d'' where
  root_eq := h'.root_eq.trans h.root_eq
  size_le := Nat.le_trans h.size_le h'.size_le
  content hc hne := by
    obtain ⟨c', hc', hedit⟩ := h.content hc fun x hx => hne x (List.mem_append_left _ hx)
    obtain ⟨c'', hc'', hedit'⟩ := h'.content hc' fun y hy => hne y (List.mem_append_right _ hy)
    exact ⟨c'', hc'', hedit.trans hedit' h.size_le hlt⟩
  fresh {id c} hid hc := by
    -- a new cell has been added by the first change or by the second one
    rcases Nat.lt_or_ge id d'.cells.size with hlt' | hge
    · rcases hmid : d'.content? id with _ | c'
      · rw [content?, Array.getElem?_eq_getElem hlt'] at hmid
        simp at hmid
      · obtain ⟨v, rfl⟩ := h.fresh hid hmid
        obtain ⟨c'', hc'', hedit⟩ := h'.content hmid fun y hy heq => by
          have := hlt y hy
          omega
        obtain rfl : c'' = c := Option.some.inj (hc''.symm.trans hc)
        cases hedit with
        | imported _ => exact ⟨v, rfl⟩
    · exact h'.fresh hge hc
  bare hnil := h'.bare (h.bare hnil)

/-- The cell of another directive keeps a scalar. -/
theorem content_scalar (h : d.EditedBy xs d') {id : Nat} {s : Scalar}
    (hc : d.content? id = some (.scalar s)) (hne : ∀ x ∈ xs, x.cell ≠ id) :
    d'.content? id = some (.scalar s) := by
  obtain ⟨c', hc', hedit⟩ := h.content hc hne
  cases hedit with
  | scalar _ => exact hc'

theorem exists_entry (h : d.EditedBy xs d') {owner : Nat} {e : Key × Nat}
    (he : e ∈ d.entries owner) (howner : ∀ x ∈ xs, x.cell ≠ owner)
    (hne : ∀ x ∈ xs, x.cell ≠ e.2) :
    ∃ key, e.1.Alike key ∧ (key, e.2) ∈ d'.entries owner := by
  rcases hc : d.content? owner with _ | c
  · simp [entries, hc] at he
  · obtain ⟨c', hc', hedit⟩ := h.content hc howner
    rw [entries, hc] at he
    obtain ⟨key, halike, hkey⟩ := hedit.exists_entry he hne
    exact ⟨key, halike, by rw [entries, hc']; exact hkey⟩

/-- Keys still lead to a cell that has not been changed. -/
theorem exists_leads (h : d.EditedBy xs d') (hleaf : ∀ x ∈ xs, d.entries x.cell = [])
    {a id : Nat} {keys : List Key} (hleads : d.Leads a keys id)
    (hne : ∀ x ∈ xs, x.cell ≠ id) : ∃ keys', AlikeKeys keys keys' ∧ d'.Leads a keys' id := by
  have howner : ∀ {owner e}, e ∈ d.entries owner → ∀ x ∈ xs, x.cell ≠ owner := by
    intro owner e he x hx heq
    rw [← heq, hleaf x hx] at he
    simp at he
  induction hleads with
  | here a => exact ⟨[], .nil, .here a⟩
  | @down a child id key keys he hrest ih =>
    have hchild : ∀ x ∈ xs, x.cell ≠ child := by
      cases hrest with
      | here _ => exact hne
      | down he' _ => exact howner he'
    obtain ⟨key', halike, he'⟩ := h.exists_entry he (howner he) hchild
    obtain ⟨keys', hkeys, hleads⟩ := ih hne
    exact ⟨key' :: keys', .cons halike hkeys, .down he' hleads⟩

end EditedBy

end Draft

end DocQuery
