/-
Documents made one after another, each below parents made before it.

* `Document.Lineage` — all documents made so far, which have different names;
* `pairwise_foldl_addPage` — the pages that are kept stand in the order in which their names come
  first;
* `mem_ancestorsOf_iff` — all pages behind the parents are kept, if different ones have different
  names;
* `Document.Lineage.trans` — whatever an ancestor inherits from, its heirs inherit from;
* `Document.ancestors_closed` — a new document and all those before it are closed in this way, and
  none is among its own ancestors.

Design notes: pages are added behind those that have been kept, so the loop is followed by induction
on the last page. It looks at names alone: in a lineage they are different, and a page leads back to
the document it belongs to.
-/
import DocQuery.Proofs.Chain.Ancestry
import Mathlib.Data.List.Basic
import Mathlib.Data.List.Induction

namespace DocQuery

variable {kept pages : List Page} {p q : Page} {id : String}

/-- A page adds its name at the end, unless the name is there. -/
theorem map_id_addPage (kept : List Page) (p : Page) :
    (addPage kept p).map (·.id) =
      if p.id ∈ kept.map (·.id) then kept.map (·.id) else kept.map (·.id) ++ [p.id] := by
  by_cases h : p.id ∈ kept.map (·.id)
  · obtain ⟨q, hq, hid⟩ := List.mem_map.1 h
    have hany : (kept.any fun q => q.id == p.id) = true :=
      List.any_eq_true.2 ⟨q, hq, beq_iff_eq.2 hid⟩
    rw [if_pos h, addPage, if_pos hany]
  · have hfresh : ∀ q ∈ kept, q.id ≠ p.id := fun q hq hid => h (List.mem_map.2 ⟨q, hq, hid⟩)
    rw [if_neg h, addPage_of_fresh hfresh, List.map_append, List.map_singleton]

theorem addPage_subset : addPage kept p ⊆ kept ++ [p] := by
  rw [addPage]
  split
  · exact List.subset_append_left _ _
  · exact List.Subset.refl _

theorem foldl_addPage_subset (pages : List Page) : pages.foldl addPage [] ⊆ pages := by
  induction pages using List.reverseRecOn with
  | nil => exact List.Subset.refl _
  | append_singleton pages p ih =>
    rw [List.foldl_append]
    have hkept := List.Subset.trans ih (List.subset_append_left pages [p])
    exact List.Subset.trans addPage_subset
      (List.append_subset.2 ⟨hkept, List.subset_append_right _ _⟩)

/-- No name gets lost. -/
theorem mem_map_id_foldl_addPage (pages : List Page) :
    id ∈ (pages.foldl addPage []).map (·.id) ↔ id ∈ pages.map (·.id) := by
  induction pages using List.reverseRecOn with
  | nil => exact Iff.rfl
  | append_singleton pages p ih =>
    rw [List.foldl_append, List.foldl_cons, List.foldl_nil, map_id_addPage, List.map_append,
      List.mem_append, ← ih, List.map_singleton]
    split
    · -- the name of the last page is there already
      rename_i hp
      refine ⟨.inl, ?_⟩
      rintro (h | h)
      · exact h
      · exact List.mem_singleton.1 h ▸ hp
    · exact List.mem_append

/-- The pages that are kept stand in the order in which their names come first. -/
theorem pairwise_foldl_addPage (pages : List Page) :
    ((pages.foldl addPage []).map (·.id)).Pairwise fun a b =>
      (pages.map (·.id)).idxOf a < (pages.map (·.id)).idxOf b := by
  induction pages using List.reverseRecOn with
  | nil => exact .nil
  | append_singleton pages p ih =>
    -- a name that was there before comes first where it came first before
    have hbefore : ∀ id ∈ (pages.foldl addPage []).map (·.id),
        ((pages ++ [p]).map (·.id)).idxOf id = (pages.map (·.id)).idxOf id := by
      intro id hid
      rw [List.map_append]
      exact List.idxOf_append_of_mem ((mem_map_id_foldl_addPage pages).1 hid)
    have hkept : ((pages.foldl addPage []).map (·.id)).Pairwise fun a b =>
        ((pages ++ [p]).map (·.id)).idxOf a < ((pages ++ [p]).map (·.id)).idxOf b :=
      ih.imp_of_mem fun ha hb hlt => by rwa [hbefore _ ha, hbefore _ hb]
    rw [List.foldl_append, List.foldl_cons, List.foldl_nil, map_id_addPage]
    split
    · exact hkept
    · rename_i hp
      rw [mem_map_id_foldl_addPage] at hp
      refine List.pairwise_append.2 ⟨hkept, List.pairwise_singleton _ _, ?_⟩
      intro id hid last hlast
      obtain rfl := List.mem_singleton.1 hlast
      rw [hbefore id hid, List.map_append, List.idxOf_append_of_notMem hp]
      have hin := (mem_map_id_foldl_addPage pages).1 hid
      exact Nat.lt_add_right _ (List.idxOf_lt_length_of_mem hin)

/-- The pages behind several parents stand in the order in which their names come first there. -/
theorem pairwise_ancestorsOf (parents : List Document) :
    ((Document.ancestorsOf parents).map (·.id)).Pairwise fun a b =>
      ((parents.flatMap Document.pages).map (·.id)).idxOf a <
        ((parents.flatMap Document.pages).map (·.id)).idxOf b :=
  pairwise_foldl_addPage _

/-- All pages behind the parents are kept, if different ones have different names. -/
theorem mem_ancestorsOf_iff {parents : List Document}
    (h : Page.NamedApart (parents.flatMap Document.pages)) :
    p ∈ Document.ancestorsOf parents ↔ p ∈ parents.flatMap Document.pages := by
  refine ⟨@foldl_addPage_subset _ p, fun hp => ?_⟩
  have hname : p.id ∈ (Document.ancestorsOf parents).map (·.id) :=
    (mem_map_id_foldl_addPage _).2 (List.mem_map.2 ⟨p, hp, rfl⟩)
  obtain ⟨q, hq, hid⟩ := List.mem_map.1 hname
  exact h q (foldl_addPage_subset _ hq) p hp hid ▸ hq

namespace Document

/-- Whether these are all the documents made so far, the last one first: each has a name of its own
and parents that were made before it. -/
inductive Lineage : List Document → Prop where
  | nil : Lineage []
  | cons {documents page parents} (made : Lineage documents)
      (hname : ∀ d ∈ documents, d.id ≠ page.id) (hparents : parents ⊆ documents) :
      Lineage (ofParents page parents :: documents)

variable {documents parents : List Document} {page : Page} {d a : Document}

namespace Lineage

/-- In a lineage a name leads back to one document. -/
theorem eq_of_id_eq (made : Lineage documents) (hd : d ∈ documents) (ha : a ∈ documents)
    (h : d.id = a.id) : d = a := by
  induction made with
  | nil => exact absurd hd List.not_mem_nil
  | cons _ hname _ ih =>
    rcases List.mem_cons.1 hd with rfl | hd <;> rcases List.mem_cons.1 ha with rfl | ha
    · rfl
    · exact absurd h.symm (hname a ha)
    · exact absurd h (hname d hd)
    · exact ih hd ha

/-- The pages behind documents of a lineage belong to documents of it. -/
theorem exists_of_mem_pages (made : Lineage documents) (hd : d ∈ documents) (hp : p ∈ d.pages) :
    ∃ a ∈ documents, p = a.toPage := by
  induction made generalizing d with
  | nil => exact absurd hd List.not_mem_nil
  | @cons documents page parents made _ hparents ih =>
    have hbelow : ∀ a ∈ documents, p ∈ a.pages →
        ∃ a ∈ ofParents page parents :: documents, p = a.toPage := by
      intro a ha hp
      obtain ⟨b, hb, rfl⟩ := ih ha hp
      exact ⟨b, List.mem_cons_of_mem _ hb, rfl⟩
    rcases List.mem_cons.1 hd with rfl | hd
    · rcases List.mem_cons.1 hp with rfl | hp
      · exact ⟨_, List.mem_cons_self, rfl⟩
      · obtain ⟨parent, hparent, hp⟩ := List.mem_flatMap.1 (foldl_addPage_subset _ hp)
        exact hbelow parent (hparents hparent) hp
    · exact hbelow d hd hp

/-- The pages behind documents of a lineage have different names. -/
theorem namedApart (made : Lineage documents) (hparents : parents ⊆ documents) :
    Page.NamedApart (parents.flatMap Document.pages) := by
  have hpage : ∀ p ∈ parents.flatMap Document.pages, ∃ a ∈ documents, p = a.toPage := by
    intro p hp
    obtain ⟨parent, hparent, hp⟩ := List.mem_flatMap.1 hp
    exact made.exists_of_mem_pages (hparents hparent) hp
  intro p hp q hq hid
  obtain ⟨a, ha, rfl⟩ := hpage p hp
  obtain ⟨b, hb, rfl⟩ := hpage q hq
  rw [made.eq_of_id_eq ha hb hid]

/-- A new document inherits from its parents, from what they inherit from, and from nothing else. -/
theorem mem_ancestors_iff (made : Lineage documents) (hparents : parents ⊆ documents) :
    p ∈ (ofParents page parents).ancestors ↔
      ∃ parent ∈ parents, p = parent.toPage ∨ p ∈ parent.ancestors := by
  refine (mem_ancestorsOf_iff (made.namedApart hparents)).trans (List.mem_flatMap.trans ?_)
  simp only [Document.pages, List.mem_cons]

/-- What a new document inherits from was made before it. -/
theorem exists_of_mem_ancestors (made : Lineage documents) (hparents : parents ⊆ documents)
    (hp : p ∈ (ofParents page parents).ancestors) : ∃ a ∈ documents, p = a.toPage := by
  obtain ⟨parent, hparent, hp⟩ := (made.mem_ancestors_iff hparents).1 hp
  exact made.exists_of_mem_pages (hparents hparent) (List.mem_cons.2 hp)

/-- No document of a lineage is among its own ancestors. -/
theorem irrefl (made : Lineage documents) (hd : d ∈ documents) (hp : p ∈ d.ancestors) :
    p.id ≠ d.id := by
  induction made with
  | nil => exact absurd hd List.not_mem_nil
  | cons made hname hparents ih =>
    rcases List.mem_cons.1 hd with rfl | hd
    · obtain ⟨a, ha, rfl⟩ := made.exists_of_mem_ancestors hparents hp
      exact hname a ha
    · exact ih hd

/-- Whatever an ancestor inherits from, its heirs inherit from. -/
theorem trans (made : Lineage documents) (hd : d ∈ documents) (ha : a ∈ documents)
    (had : a.toPage ∈ d.ancestors) : a.ancestors ⊆ d.ancestors := by
  induction made generalizing d with
  | nil => exact absurd hd List.not_mem_nil
  | @cons documents page parents made hname hparents ih =>
    -- the new document is nobody's ancestor, since all ancestors were made before their heirs
    have hbelow : a ∈ documents := by
      have hmade : ∃ b ∈ documents, a.toPage = b.toPage := by
        rcases List.mem_cons.1 hd with rfl | hd
        · exact made.exists_of_mem_ancestors hparents had
        · exact made.exists_of_mem_pages hd (List.mem_cons_of_mem _ had)
      obtain ⟨b, hb, hpage⟩ := hmade
      rcases List.mem_cons.1 ha with rfl | ha
      · exact absurd (congrArg Page.id hpage).symm (hname b hb)
      · exact ha
    rcases List.mem_cons.1 hd with rfl | hd
    · obtain ⟨parent, hparent, hpage⟩ := (made.mem_ancestors_iff hparents).1 had
      have hinherit : a.ancestors ⊆ parent.ancestors := by
        rcases hpage with hpage | hpage
        · have heq : a = parent :=
            made.eq_of_id_eq hbelow (hparents hparent) (congrArg Page.id hpage)
          rw [heq]
          exact List.Subset.refl _
        · exact ih (hparents hparent) hbelow hpage
      intro p hp
      exact (made.mem_ancestors_iff hparents).2 ⟨parent, hparent, .inr (hinherit hp)⟩
    · exact ih hd hbelow had

end Lineage

/-- A document that is made below parents, all documents so far having different names, inherits
from no document twice, from each parent and what that inherits from, and from nothing else, in the
order in which these come first behind one another. So a document of a lineage inherits from
whatever an ancestor of it inherits from, and never from itself. -/
theorem ancestors_closed (made : Lineage documents) (hname : ∀ d ∈ documents, d.id ≠ page.id)
    (hparents : parents ⊆ documents) :
    let ancestors := (ofParents page parents).ancestors
    let behind := (parents.flatMap fun parent => parent.toPage :: parent.ancestors).map (·.id)
    (ancestors.map (·.id)).Nodup ∧
      (∀ p, p ∈ ancestors ↔ ∃ parent ∈ parents, p = parent.toPage ∨ p ∈ parent.ancestors) ∧
      (ancestors.map (·.id)).Pairwise (fun a b => behind.idxOf a < behind.idxOf b) ∧
      ∀ d ∈ ofParents page parents :: documents,
        (∀ a ∈ ofParents page parents :: documents, a.toPage ∈ d.ancestors →
          a.ancestors ⊆ d.ancestors) ∧
        ∀ p ∈ d.ancestors, p.id ≠ d.id := by
  intro ancestors behind
  have horder : (ancestors.map (·.id)).Pairwise fun a b => behind.idxOf a < behind.idxOf b :=
    pairwise_ancestorsOf parents
  have hall : Lineage (ofParents page parents :: documents) := .cons made hname hparents
  refine ⟨?_, ?_, horder, ?_⟩
  · refine horder.imp ?_
    rintro a _ hlt rfl
    exact Nat.lt_irrefl _ hlt
  · exact fun p => made.mem_ancestors_iff hparents
  · exact fun d hd => ⟨fun a ha had => hall.trans hd ha had, fun p hp => hall.irrefl hd hp⟩

/-- An empty page. -/
def blankPage (id : String) : Page := ⟨id, .object (.at (.root id)) []⟩

/-- Two documents above a third. -/
def diamond : List Document :=
  let base := ofParents (blankPage "base") []
  [ofParents (blankPage "right") [base], ofParents (blankPage "left") [base], base]

theorem lineage_diamond : Lineage diamond := by
  refine .cons (.cons (.cons .nil ?_ ?_) ?_ ?_) ?_ ?_
  · exact fun d hd => absurd hd List.not_mem_nil
  · exact List.nil_subset _
  · exact List.forall_mem_singleton.2 (by decide)
  · exact List.Subset.refl _
  · exact List.forall_mem_cons.2 ⟨by decide, List.forall_mem_singleton.2 (by decide)⟩
  · exact List.subset_cons_self _ _

theorem ancestors_closed_diamond :
    Lineage diamond ∧ (∀ d ∈ diamond, d.id ≠ "top") ∧ diamond ⊆ diamond ∧
      let top := ofParents (blankPage "top") diamond
      top.ancestors.map (·.id) = ["right", "base", "left"] ∧ (top.ancestors.map (·.id)).Nodup ∧
        ∀ a ∈ diamond, a.toPage ∈ top.ancestors → a.ancestors ⊆ top.ancestors := by
  have hname : ∀ d ∈ diamond, d.id ≠ (blankPage "top").id :=
    List.forall_mem_cons.2 ⟨by decide, List.forall_mem_cons.2 ⟨by decide,
      List.forall_mem_singleton.2 (by decide)⟩⟩
  have hclosed := ancestors_closed lineage_diamond hname (List.Subset.refl _)
  obtain ⟨hnodup, -, -, hlineage⟩ := hclosed
  refine ⟨lineage_diamond, hname, List.Subset.refl _, by decide, hnodup, ?_⟩
  exact fun a ha => (hlineage _ List.mem_cons_self).1 a (List.mem_cons_of_mem _ ha)

end Document

end DocQuery
