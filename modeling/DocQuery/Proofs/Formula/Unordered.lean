/-
Queries that do not depend on the order of members.

* `Rearrangement.sorted` — sorting the members of all objects by their names rearranges values;
* `Document.Reordered` — documents that differ only in the order of members;
* `evaluateIn_reordered` — the value of an expression in such documents is sorted alike;
* `joinParts_reordered` — the texts that expressions leave inside another one are the same;
* `query_reordered` — and a query has the same JSON for its result, or the same report.

Design notes: a document and its reordering are compared with a third one, in which all members are
sorted. Every evaluation there gives what it gives in either of the two, sorted.
-/
import DocQuery.Proofs.Formula.Confinement
import DocQuery.Proofs.Value.Placing
import DocQuery.Proofs.Value.Reordering

namespace DocQuery

/-- Sorting the members of all objects by their names. -/
def Rearrangement.sorted : Rearrangement where
  apply := Node.sorted
  scalar p s := by rw [Node.sorted]
  array p items := by rw [Node.sorted, Node.sortedItems_eq_map]
  object p members :=
    ⟨Node.sortedMembers members, by rw [Node.sorted], Node.lookup_sortedMembers members⟩
  toJson := Node.toJson_sorted

/-- A rearranged value becomes the same JSON, or nothing at all. -/
theorem Rearrangement.toJson_toNode? (σ : Rearrangement) (v : Value) (p : Path) :
    ((v.map σ).toNode? p).map Node.toJson = (v.toNode? p).map Node.toJson := by
  cases v with
  | node n =>
    show some (if (σ n).path = p then σ n else (σ n).copiedTo p).toJson =
      some (if n.path = p then n else n.copiedTo p).toJson
    rw [Node.toJson_moved, Node.toJson_moved, σ.toJson]
  | nodes items =>
    show some (Json.array (Node.itemsToJson (Node.copyItems p 0 (items.map σ)))) =
      some (Json.array (Node.itemsToJson (Node.copyItems p 0 items)))
    rw [Node.itemsToJson_copyItems, Node.itemsToJson_copyItems, Node.itemsToJson_eq_map,
      Node.itemsToJson_eq_map, List.map_map]
    exact congrArg _ (congrArg _ (List.map_congr_left fun n _ => σ.toJson n))
  | undefined | null | boolean | number | text | moment => rfl

/-- Values that are rearranged alike become the same JSON, or nothing at all. -/
theorem Rearrangement.toJson_eq {σ : Rearrangement} {v v' : Value} (h : v'.map σ = v.map σ)
    (p : Path) : (v'.toNode? p).map Node.toJson = (v.toNode? p).map Node.toJson := by
  rw [← σ.toJson_toNode? v', h, σ.toJson_toNode? v]

theorem Traced.outcome_map {α β : Type} (f : α → β) (x : Traced α) :
    (f <$> x).outcome = x.outcome.map f := by
  rcases x with ⟨_ | a, sightings⟩ <;> rfl

/-! ### Documents -/

/-- Whether two pages of one name differ only in the order of members. -/
structure Page.Reordered (p p' : Page) : Prop where
  id : p'.id = p.id
  root : p.root.Reordered p'.root

/-- Whether two documents, with all that they inherit from, differ only in the order of members. -/
structure Document.Reordered (d d' : Document) : Prop where
  page : d.toPage.Reordered d'.toPage
  ancestors : List.Forall₂ Page.Reordered d.ancestors d'.ancestors

/-- A page with all members sorted. -/
def Page.sorted (p : Page) : Page := ⟨p.id, p.root.sorted⟩

/-- A document with all members sorted, and so are those of the pages that it inherits from. -/
def Document.sorted (d : Document) : Document := ⟨d.toPage.sorted, d.ancestors.map Page.sorted⟩

theorem Page.reordered_sorted (p : Page) : p.Reordered p.sorted := ⟨rfl, p.root.reordered_sorted⟩

theorem Document.reordered_sorted (d : Document) : d.Reordered d.sorted where
  page := d.toPage.reordered_sorted
  ancestors := List.forall₂_map_right_iff.2 (List.forall₂_same.2 fun p _ => p.reordered_sorted)

theorem Page.Reordered.sorted_eq {p p' : Page} (haddressed : p.root.IsAddressed)
    (h : p.Reordered p') : p'.sorted = p.sorted := by
  rw [Page.sorted, Page.sorted, h.id, h.root.sorted_eq haddressed]

/-- A compiled document and its reordering are sorted alike. -/
theorem Document.Reordered.sorted_eq {d d' : Document} (hcompiled : d.IsCompiled)
    (h : d.Reordered d') : d'.sorted = d.sorted := by
  obtain ⟨haddressed, -⟩ := Engine.isAddressed_of_isCompiled hcompiled
  have hpages : ∀ p ∈ d.ancestors, p.root.IsAddressed := fun p hp =>
    (List.forall₂_same.1 haddressed.ancestors p hp).root.2
  have hancestors : d'.ancestors.map Page.sorted = d.ancestors.map Page.sorted := by
    have hreordered := h.ancestors
    generalize d.ancestors = pages at hpages hreordered ⊢
    generalize d'.ancestors = pages' at hreordered ⊢
    induction hreordered with
    | nil => rfl
    | cons hp _ ih =>
      rw [List.forall_mem_cons] at hpages
      rw [List.map_cons, List.map_cons, hp.sorted_eq hpages.1, ih hpages.2]
  rw [sorted, sorted, h.page.sorted_eq haddressed.page.root.2, hancestors]

/-- Documents that differ only in the order of members are kept or left out alike. -/
theorem Document.ancestorsOf_sorted (documents : List Document) :
    ancestorsOf (documents.map sorted) = (ancestorsOf documents).map Page.sorted := by
  have hadd (pages : List Page) (p : Page) :
      addPage (pages.map Page.sorted) p.sorted = (addPage pages p).map Page.sorted := by
    rw [addPage, addPage, List.any_map]
    show (if pages.any fun q => q.id == p.id then _ else _) = _
    split
    · rfl
    · rw [List.map_append, List.map_singleton]
  have hpages : (documents.map sorted).flatMap pages =
      (documents.flatMap pages).map Page.sorted := by
    rw [List.flatMap_map, List.map_flatMap]
    rfl
  rw [ancestorsOf, ancestorsOf, hpages, List.foldl_map]
  generalize documents.flatMap pages = more
  have hall : ∀ kept, more.foldl (fun kept p => addPage kept p.sorted) (kept.map Page.sorted) =
      (more.foldl addPage kept).map Page.sorted := by
    induction more with
    | nil => exact fun _ => rfl
    | cons p more ih =>
      intro kept
      rw [List.foldl_cons, List.foldl_cons, hadd, ih]
  exact hall []

theorem Engine.queryDocument_sorted (documents : List Document) :
    queryDocument (documents.map Document.sorted) = (queryDocument documents).sorted := by
  rw [queryDocument, queryDocument, Document.ofParents, Document.ofParents,
    Document.ancestorsOf_sorted]
  rfl

theorem Document.map_sorted_eq {documents documents' : List Document}
    (hcompiled : ∀ d ∈ documents, d.IsCompiled)
    (h : List.Forall₂ Document.Reordered documents documents') :
    documents'.map sorted = documents.map sorted := by
  induction h with
  | nil => rfl
  | cons hd _ ih =>
    rw [List.forall_mem_cons] at hcompiled
    rw [List.map_cons, List.map_cons, hd.sorted_eq hcompiled.1, ih hcompiled.2]

/-! ### Evaluation -/

section Evaluation

variable {e : Engine} {text : String} {origin : Position} {f : Formula} {d d' : Document}

theorem Document.recasts_sorted (d : Document) : d.Recasts .sorted (fun _ => True) d.sorted where
  id := rfl
  root _ _ _ := rfl
  ancestors _ _ _ := by
    rw [sorted, List.map_map]
    rfl

/-- Where all members are sorted, an expression has the value that it has otherwise, sorted. -/
theorem evaluateIn_sorted (hstandard : e.dialect = .standard)
    (hf : compileExpression e.dialect text origin = .ok f) (d : Document) :
    e.evaluateIn d.sorted f = Value.map Rearrangement.sorted <$> e.evaluateIn d f := by
  obtain ⟨tree, -, hcompile⟩ := Except.bind_eq_ok_iff.1 hf
  have hv : e.dialect.vocabulary.Respects .sorted := by
    rw [hstandard]
    exact Vocabulary.standard_respects _
  exact evaluateIn_map hcompile hv (fun _ _ => trivial) d.recasts_sorted

/-- An expression has values that are sorted alike in a compiled document and its reordering. -/
theorem evaluateIn_reordered (hstandard : e.dialect = .standard) (hcompiled : d.IsCompiled)
    (h : d.Reordered d') (hf : compileExpression e.dialect text origin = .ok f) :
    Value.map Rearrangement.sorted <$> e.evaluateIn d' f =
      Value.map Rearrangement.sorted <$> e.evaluateIn d f := by
  rw [← evaluateIn_sorted hstandard hf, ← evaluateIn_sorted hstandard hf, h.sorted_eq hcompiled]

/-- Expressions leave the same texts inside another one in a compiled document and its
reordering. -/
theorem joinParts_reordered (hstandard : e.dialect = .standard) (hcompiled : d.IsCompiled)
    (h : d.Reordered d') {parts : List Part}
    (hparts : (Action.interpolate parts).IsCompiled e.dialect) :
    joinParts ⟨d', e.options, e.now, []⟩ parts = joinParts ⟨d, e.options, e.now, []⟩ parts := by
  induction parts with
  | nil => rfl
  | cons part parts ih =>
    have hrest := ih fun f hf => by
      cases hf with
      | part hf => exact hparts f (.part (List.mem_cons_of_mem _ hf))
    cases part with
    | text content => rw [joinParts, joinParts, hrest]
    | formula f =>
      obtain ⟨text, origin, hf⟩ := hparts f (.part List.mem_cons_self)
      have hvalue := evaluateIn_reordered hstandard hcompiled h hf
      -- the text of a value is that of the sorted value
      have hdisplay (x : Traced Value) : (x >>= fun v => Traced.ofExcept (v.display f.position)) =
          (Value.map Rearrangement.sorted <$> x) >>= fun v =>
            Traced.ofExcept (v.display f.position) := by
        simp only [bind_map_left, Rearrangement.display]
      have htext : (e.evaluateIn d' f >>= fun v => Traced.ofExcept (v.display f.position)) =
          e.evaluateIn d f >>= fun v => Traced.ofExcept (v.display f.position) := by
        rw [hdisplay, hvalue, ← hdisplay]
      rw [joinParts, joinParts, hrest, ← bind_assoc, ← bind_assoc]
      exact congrArg (· >>= _) htext

end Evaluation

/-- Objects are unordered to queries. Against compiled documents and documents that differ from
these only in the order of members, at any depth, a query has the same JSON for its result, or the
same report. The texts that expressions leave inside another one are the same as well. -/
theorem query_reordered {e : Engine} (hstandard : e.dialect = .standard)
    {documents documents' : List Document} (hcompiled : ∀ d ∈ documents, d.IsCompiled)
    (h : List.Forall₂ Document.Reordered documents documents') :
    (∀ text, (e.query text documents').value.map Node.toJson =
        (e.query text documents).value.map Node.toJson ∧
      (e.query text documents').reports = (e.query text documents).reports) ∧
    ∀ d d' parts, d.IsCompiled → d.Reordered d' →
      (Action.interpolate parts).IsCompiled e.dialect →
        joinParts ⟨d', e.options, e.now, []⟩ parts =
          joinParts ⟨d, e.options, e.now, []⟩ parts := by
  refine ⟨fun text => ?_, fun d d' parts hd hreordered hparts =>
    joinParts_reordered hstandard hd hreordered hparts⟩
  rcases e.query_eq text with ⟨fault, -, hquery⟩ | ⟨f, hf, hquery⟩
  · rw [hquery, hquery]
    exact ⟨rfl, rfl⟩
  · -- both answers are compared with the one against the sorted documents
    have hsorted : Value.map Rearrangement.sorted <$>
          e.evaluateIn (Engine.queryDocument documents') f =
        Value.map Rearrangement.sorted <$> e.evaluateIn (Engine.queryDocument documents) f := by
      rw [← evaluateIn_sorted hstandard hf, ← evaluateIn_sorted hstandard hf,
        ← Engine.queryDocument_sorted, ← Engine.queryDocument_sorted,
        Document.map_sorted_eq hcompiled h]
    have houtcome := congrArg Traced.outcome hsorted
    rw [Engine.evaluateIn, Engine.evaluateIn, Traced.outcome_map, Traced.outcome_map] at houtcome
    rw [hquery, hquery]
    generalize (evaluate ⟨Engine.queryDocument documents, e.options, e.now, []⟩ f).outcome = x
      at houtcome ⊢
    generalize (evaluate ⟨Engine.queryDocument documents', e.options, e.now, []⟩ f).outcome = x'
      at houtcome ⊢
    cases x with
    | error fault =>
      cases x' with
      | error fault' =>
        obtain rfl := Except.error.inj houtcome
        exact ⟨rfl, rfl⟩
      | ok v' => cases houtcome
    | ok v =>
      cases x' with
      | error fault' => cases houtcome
      | ok v' =>
        exact ⟨Rearrangement.toJson_eq (Except.ok.inj houtcome) _, rfl⟩

/-- A document with two values that only differ in the order of members, its own not in order. -/
def unsortedChain : List SourceText :=
  [⟨"C", "\x7b\"B\":[\x7b\"Y\":1,\"X\":2\x7d,\x7b\"X\":2,\"Y\":1\x7d],\"A\":true\x7d"⟩]

theorem query_reordered_distinct :
    let e := Engine.standard (.midnight ⟨2024, 1, 1⟩)
    ∃ d f, (e.compile unsortedChain).closest? unsortedChain = some d ∧
      d.root.members?.map (List.map Prod.fst) = some ["B", "A"] ∧
      d.sorted.root.members?.map (List.map Prod.fst) = some ["A", "B"] ∧
      (e.query "ToString(B.Distinct())" [d]).value.bind Node.scalar? =
        some (.quoted "[\x7b\"X\":2,\"Y\":1\x7d]") ∧
      (e.query "ToString(B.Distinct())" [d.sorted]).value.map Node.toJson =
        (e.query "ToString(B.Distinct())" [d]).value.map Node.toJson ∧
      compileExpression .standard "B" .start = .ok f ∧
      joinParts ⟨d.sorted, e.options, e.now, []⟩ [.text "B: ", .formula f] =
        joinParts ⟨d, e.options, e.now, []⟩ [.text "B: ", .formula f] := by
  intro e
  have hfound : (((e.compile unsortedChain).closest? unsortedChain).any fun d =>
      decide (d.root.members?.map (List.map Prod.fst) = some ["B", "A"] ∧
        d.sorted.root.members?.map (List.map Prod.fst) = some ["A", "B"] ∧
        (e.query "ToString(B.Distinct())" [d]).value.bind Node.scalar? =
          some (.quoted "[\x7b\"X\":2,\"Y\":1\x7d]"))) = true := by
    decide +kernel
  obtain ⟨d, hd, h⟩ := (Option.any_eq_true _ _).1 hfound
  obtain ⟨hnames, hsorted, hanswer⟩ := of_decide_eq_true h
  obtain ⟨f, hf⟩ := Except.exists_of_isOk
    (show (compileExpression .standard "B" .start).isOk by decide +kernel)
  have hcompiled : d.IsCompiled :=
    Engine.isCompiled_of_mem_compile (Vocabulary.standard_keeps _) (List.mem_of_find?_eq_some hd)
  have hall : ∀ p ∈ [d], p.IsCompiled := by
    intro p hp
    rw [List.mem_singleton.1 hp]
    exact hcompiled
  have hparts : (Action.interpolate [.text "B: ", .formula f]).IsCompiled e.dialect := by
    intro g hg
    cases hg with
    | part hg =>
      simp only [List.mem_cons, reduceCtorEq, Part.formula.injEq, List.not_mem_nil, or_false,
        false_or] at hg
      exact ⟨"B", .start, hg ▸ hf⟩
  have hreordered : List.Forall₂ Document.Reordered [d] [d.sorted] := .cons d.reordered_sorted .nil
  obtain ⟨hquery, htexts⟩ := query_reordered (e := e) rfl hall hreordered
  exact ⟨d, f, hd, hnames, hsorted, hanswer, (hquery _).1, hf,
    htexts d _ _ hcompiled d.reordered_sorted hparts⟩

end DocQuery
