/-
The directives of a draft.

* `sortByKind_perm` — sorting directives by their kinds keeps all of them;
* `directiveOf_eq_ok` — a directive is about a quoted string;
* `Action.IsCompiled`, `Action.SitsIn` — the formulas of an action come from texts, and it is found
  where it can be carried out;
* `directiveOf_spec` — every directive is of this kind;
* `mem_of_detect` — the directives of a draft are those of the cells of the document;
* `detect_cells_nodup` — there is one at most for every cell.
-/
import Mathlib.Data.List.Perm.Basic
import DocQuery.Directive.Detect
import DocQuery.Proofs.Draft.Planting

namespace DocQuery

variable {d : Dialect} {draft : Draft} {n : Nat} {directives : List Directive} {x : Directive}

theorem gather_eq_ok_iff {α β γ : Type} {f : α → β → γ} {a : Except (List Fault) α}
    {b : Except (List Fault) β} {c : γ} :
    gather f a b = .ok c ↔ ∃ u v, a = .ok u ∧ b = .ok v ∧ f u v = c := by
  rcases a with faults | u
  · rcases b with more | v <;> simp [gather]
  · rcases b with more | v <;> simp [gather]

/-- Sorting by kinds keeps all directives. -/
theorem sortByKind_perm (directives : List Directive) :
    (sortByKind directives).Perm directives := by
  induction directives with
  | nil => simp [sortByKind, ActionKind.all]
  | cons x rest ih =>
    refine List.Perm.trans ?_ (ih.cons x)
    simp only [sortByKind, ActionKind.all, List.flatMap_cons, List.flatMap_nil, List.append_nil,
      List.filter_cons]
    rcases x.action.kind
    · exact List.Perm.refl _
    · exact List.perm_middle
    · exact (List.perm_middle.append_left _).trans List.perm_middle
    · refine List.Perm.trans (List.perm_middle.append_left _ |>.append_left _) ?_
      exact (List.perm_middle.append_left _).trans List.perm_middle

/-- A directive is about the quoted string in its cell. -/
theorem directiveOf_eq_ok {id : Nat} (h : directiveOf d draft id = .ok (some x)) :
    x.cell = id ∧ ∃ text, draft.content? id = some (.scalar ⟨text, true⟩) := by
  rw [directiveOf] at h
  split at h
  · simp at h
  · rename_i c hc
    obtain ⟨action, haction, h⟩ := Except.map_eq_ok_iff.1 h
    obtain ⟨a, rfl, rfl⟩ := Option.map_eq_some_iff.1 h
    -- every branch that gives an action has looked at a quoted scalar before
    have htext : ∃ text, c.content = .scalar ⟨text, true⟩ := by
      rw [cellAction] at haction
      split at haction
      · rw [copyFieldsAction] at haction
        split at haction
        · rename_i text hcontent
          exact ⟨text, hcontent⟩
        · simp at haction
      · split at haction
        · rename_i text hcontent
          exact ⟨text, hcontent⟩
        · simp at haction
    obtain ⟨text, htext⟩ := htext
    exact ⟨rfl, text, by rw [Draft.content?, hc, Option.map_some, htext]⟩

/-! ### What is found -/

/-- Whether a formula is one of an action. -/
inductive Action.Has : Action → Formula → Prop
  | copyFields (f : Formula) : Has (.copyFields f) f
  | merge (f : Formula) : Has (.merge f) f
  | value (f : Formula) : Has (.value f) f
  | part {f : Formula} {parts : List Part} : Part.formula f ∈ parts → Has (.interpolate parts) f

/-- Whether the formulas of an action come from texts. -/
def Action.IsCompiled (d : Dialect) (a : Action) : Prop :=
  ∀ f, a.Has f → ∃ text p, compileExpression d text p = .ok f

/-- Whether an action that adds entries sits in a container that they fit in. -/
def Action.SitsIn (slot : Option Slot) : Action → Prop
  | copyFields _ => ∃ object, slot = some (.member object copyFieldsName)
  | merge _ => ∃ array index, slot = some (.item array index)
  | value _ | interpolate _ => True

section Spellings

variable {a : Action} {f : Formula} {cs : List Char} {p : Position} {c : Cell} {slot : Option Slot}

theorem compileIn_eq_ok (h : compileIn d cs p = .ok f) :
    compileExpression d (String.ofList cs) p = .ok f := by
  rw [compileIn] at h
  rcases hf : compileExpression d (String.ofList cs) p with fault | g
  · rw [hf] at h
    cases h
  · rw [hf] at h
    exact congrArg _ (Except.ok.inj h)

theorem compileFragments_isCompiled {fragments : List Fragment} {parts : List Part}
    (h : compileFragments d c fragments = .ok parts) : (Action.interpolate parts).IsCompiled d := by
  induction fragments generalizing parts with
  | nil =>
    obtain rfl := Except.ok.inj h
    intro f hf
    cases hf with
    | part hf => cases hf
  | cons fragment fragments ih =>
    obtain ⟨part, rest, hpart, hrest, rfl⟩ := gather_eq_ok_iff.1 h
    intro f hf
    cases hf with
    | part hf =>
      rcases List.mem_cons.1 hf with rfl | hf
      · cases fragment with
        | text content => cases hpart
        | expression content offset =>
          obtain ⟨g, hg, heq⟩ := Except.map_eq_ok_iff.1 hpart
          obtain rfl := Part.formula.inj heq
          exact ⟨_, _, compileIn_eq_ok hg⟩
      · exact ih hrest f (.part hf)

/-- What is found in a string that is no `$copyFields` comes from its text. -/
theorem stringAction_spec (h : stringAction d c slot cs = .ok (some a)) :
    a.IsCompiled d ∧ a.SitsIn slot := by
  rw [stringAction] at h
  split at h
  · cases h
  · split at h
    · obtain ⟨f, hf, heq⟩ := Except.map_eq_ok_iff.1 h
      obtain rfl := Option.some.inj heq
      refine ⟨?_, trivial⟩
      rintro _ ⟨⟩
      exact ⟨_, _, compileIn_eq_ok hf⟩
    · split at h
      · obtain ⟨f, hf, heq⟩ := Except.map_eq_ok_iff.1 h
        obtain rfl := Option.some.inj heq
        refine ⟨?_, _, _, rfl⟩
        rintro _ ⟨⟩
        exact ⟨_, _, compileIn_eq_ok hf⟩
      · cases h
    · rw [interpolationIn] at h
      split at h
      · split at h
        · cases h
        · obtain ⟨parts, hparts, heq⟩ := Except.map_eq_ok_iff.1 h
          obtain rfl := Option.some.inj heq
          exact ⟨compileFragments_isCompiled hparts, trivial⟩
      · cases h

theorem cellAction_spec (h : cellAction d c slot = .ok (some a)) :
    a.IsCompiled d ∧ a.SitsIn slot := by
  rw [cellAction] at h
  split at h
  · rename_i hslot
    rw [copyFieldsAction] at h
    split at h
    · obtain ⟨f, hf, heq⟩ := Except.map_eq_ok_iff.1 h
      obtain rfl := Option.some.inj heq
      constructor
      · rintro _ ⟨⟩
        exact ⟨_, _, compileIn_eq_ok hf⟩
      · rcases slot with _ | ⟨object, name⟩ | ⟨array, index⟩
        · cases hslot
        · obtain rfl : name = copyFieldsName := beq_iff_eq.1 hslot
          exact ⟨object, rfl⟩
        · cases hslot
    · cases h
  · split at h
    · exact stringAction_spec h
    · cases h

/-- The formulas of a directive come from texts, and it is found where it can be carried out. -/
theorem directiveOf_spec {id : Nat} (h : directiveOf d draft id = .ok (some x)) :
    x.action.IsCompiled d ∧ x.action.SitsIn (draft.slot? id) := by
  rw [directiveOf] at h
  split at h
  · cases h
  · obtain ⟨action, haction, h⟩ := Except.map_eq_ok_iff.1 h
    obtain ⟨a, rfl, rfl⟩ := Option.map_eq_some_iff.1 h
    exact cellAction_spec haction

end Spellings

/-! ### All directives -/

theorem directivesOf_eq_ok {ids : List Nat} (h : directivesOf d draft ids = .ok directives) :
    (directives.map (·.cell)).Sublist ids ∧
      ∀ x ∈ directives, directiveOf d draft x.cell = .ok (some x) := by
  induction ids generalizing directives with
  | nil =>
    obtain rfl : [] = directives := by simpa [directivesOf] using h
    simp
  | cons id ids ih =>
    rw [directivesOf] at h
    obtain ⟨found, rest, hfound, hrest, rfl⟩ := gather_eq_ok_iff.1 h
    obtain ⟨hsub, hall⟩ := ih hrest
    rcases found with _ | x
    · exact ⟨hsub.cons id, hall⟩
    · obtain ⟨rfl, _⟩ := directiveOf_eq_ok hfound
      refine ⟨hsub.cons_cons x.cell, ?_⟩
      intro y hy
      rcases List.mem_cons.1 hy with rfl | hy
      · exact hfound
      · exact hall y hy

/-- The directives of a draft are those of cells of the document. -/
theorem mem_of_detect (h : detect d draft = .ok directives) (hx : x ∈ directives) :
    x.cell ∈ draft.order ∧ directiveOf d draft x.cell = .ok (some x) := by
  obtain ⟨found, hfound, rfl⟩ := Except.map_eq_ok_iff.1 h
  obtain ⟨hsub, hall⟩ := directivesOf_eq_ok hfound
  have hmem : x ∈ found := (sortByKind_perm found).subset hx
  exact ⟨hsub.subset (List.mem_map_of_mem hmem), hall x hmem⟩

/-- There is one directive at most for every cell. -/
theorem detect_cells_nodup (htree : draft.IsTree n) (h : detect d draft = .ok directives) :
    (directives.map (·.cell)).Nodup := by
  obtain ⟨found, hfound, rfl⟩ := Except.map_eq_ok_iff.1 h
  obtain ⟨hsub, _⟩ := directivesOf_eq_ok hfound
  have hnodup : (found.map (·.cell)).Nodup := hsub.nodup htree.order_nodup
  exact ((sortByKind_perm found).map _).nodup_iff.2 hnodup

end DocQuery
