/-
The pages that a document inherits from.

* `Page.NamedApart` — different pages of a list have different names;
* `exists_foldl_addPage` — pages that come later leave those before them as they are;
* `ancestorsOf_singleton` — the pages behind a single parent are its own;
* `firstMember?_ancestorsOf` — leaving out repeated pages does not change where a name is found.

Design notes: the pages are collected one by one, so every statement is generalised over the pages
that have been kept so far.
-/
import DocQuery.Formula.Evaluate

namespace DocQuery

/-- Whether different pages of a list have different names. The same page may occur repeatedly. -/
def Page.NamedApart (pages : List Page) : Prop :=
  ∀ p ∈ pages, ∀ q ∈ pages, p.id = q.id → p = q

variable {kept more : List Page} {p : Page} {name : String}

theorem addPage_of_mem (h : p ∈ kept) : addPage kept p = kept := by
  have hany : (kept.any fun q => q.id == p.id) = true :=
    List.any_eq_true.2 ⟨p, h, beq_self_eq_true _⟩
  rw [addPage, if_pos hany]

theorem addPage_of_fresh (h : ∀ q ∈ kept, q.id ≠ p.id) : addPage kept p = kept ++ [p] := by
  have hany : (kept.any fun q => q.id == p.id) = false := by
    rw [List.any_eq_false]
    intro q hq heq
    exact h q hq (beq_iff_eq.1 heq)
  rw [addPage, hany, if_neg Bool.false_ne_true]

/-- Pages that come later leave those before them as they are. -/
theorem exists_foldl_addPage (kept more : List Page) :
    ∃ added, more.foldl addPage kept = kept ++ added := by
  induction more generalizing kept with
  | nil => exact ⟨[], (List.append_nil kept).symm⟩
  | cons p more ih =>
    obtain ⟨added, h⟩ := ih (addPage kept p)
    rw [List.foldl_cons, h, addPage]
    split
    · exact ⟨added, rfl⟩
    · exact ⟨p :: added, by simp⟩

/-- Pages of different names are all kept. -/
theorem foldl_addPage_of_nodup (kept : List Page) (h : ((kept ++ more).map (·.id)).Nodup) :
    more.foldl addPage kept = kept ++ more := by
  induction more generalizing kept with
  | nil => simp
  | cons p more ih =>
    have hfresh : ∀ q ∈ kept, q.id ≠ p.id := by
      intro q hq
      rw [List.map_append, List.map_cons, List.nodup_append] at h
      exact h.2.2 _ (List.mem_map_of_mem hq) _ List.mem_cons_self
    rw [List.foldl_cons, addPage_of_fresh hfresh, ih _ (by simpa using h)]
    simp

/-- The pages behind a single parent are its own, if their names differ. -/
theorem ancestorsOf_singleton {d : Document} (h : (d.pages.map (·.id)).Nodup) :
    Document.ancestorsOf [d] = d.pages := by
  rw [Document.ancestorsOf, List.flatMap_singleton]
  exact foldl_addPage_of_nodup [] h

/-- More parents add pages behind those of the parents before them. -/
theorem exists_ancestorsOf_append (parents more : List Document) :
    ∃ added, Document.ancestorsOf (parents ++ more) = Document.ancestorsOf parents ++ added := by
  rw [Document.ancestorsOf, List.flatMap_append, List.foldl_append]
  exact exists_foldl_addPage _ _

namespace Page

theorem NamedApart.of_subset {pages : List Page} (h : NamedApart pages) (hsub : more ⊆ pages) :
    NamedApart more :=
  fun p hp q hq => h p (hsub hp) q (hsub hq)

theorem firstMember?_append (name : String) (pages more : List Page) :
    firstMember? name (pages ++ more) =
      (firstMember? name pages).or (firstMember? name more) := by
  rw [firstMember?, List.findSome?_append]
  rfl

/-- The first page that has a name settles what is found. -/
theorem firstMember?_of_eq {pages before after : List Page} {n : Node}
    (h : pages = before ++ p :: after) (hbefore : ∀ q ∈ before, q.root.member? name = none)
    (hp : p.root.member? name = some n) : firstMember? name pages = some n := by
  have hnone : firstMember? name before = none := List.findSome?_eq_none_iff.2 hbefore
  rw [h, firstMember?_append, hnone, Option.none_or, firstMember?, List.findSome?_cons, hp]

/-- A page that is there already adds nothing to be found. -/
theorem firstMember?_concat_of_mem (h : p ∈ kept) :
    firstMember? name (kept ++ [p]) = firstMember? name kept := by
  rw [firstMember?_append]
  cases hkept : firstMember? name kept with
  | some n => rfl
  | none =>
    have hp : p.root.member? name = none := List.findSome?_eq_none_iff.1 hkept p h
    simp [firstMember?, hp]

theorem firstMember?_foldl_addPage (kept : List Page) (h : NamedApart (kept ++ more)) :
    firstMember? name (more.foldl addPage kept) = firstMember? name (kept ++ more) := by
  induction more generalizing kept with
  | nil => simp
  | cons p more ih =>
    rw [List.foldl_cons, List.append_cons]
    by_cases hp : p ∈ kept
    · have hsub : kept ++ more ⊆ kept ++ p :: more := by
        intro q hq
        rw [List.mem_append, List.mem_cons]
        exact (List.mem_append.1 hq).imp_right .inr
      rw [addPage_of_mem hp, ih _ (h.of_subset hsub), firstMember?_append name (kept ++ [p]),
        firstMember?_concat_of_mem hp, ← firstMember?_append]
    · -- a page of the same name would be the same page
      have hfresh : ∀ q ∈ kept, q.id ≠ p.id := by
        intro q hq heq
        exact hp (h q (by simp [hq]) p (by simp) heq ▸ hq)
      rw [addPage_of_fresh hfresh]
      exact ih _ (by rwa [← List.append_cons])

/-- Leaving out repeated pages does not change where a name is found. -/
theorem firstMember?_ancestorsOf {parents : List Document}
    (h : NamedApart (parents.flatMap Document.pages)) :
    firstMember? name (Document.ancestorsOf parents) =
      firstMember? name (parents.flatMap Document.pages) :=
  firstMember?_foldl_addPage [] h

end Page

end DocQuery
