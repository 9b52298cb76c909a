/-
Chains of documents.

* `Engine.Stacks` — the documents of a chain, made one by one, each below the one made before it;
* `Engine.Breaks` — the deepest document of a chain that is not finished, above those that are;
* `Engine.stacks_or_breaks` — every chain is one or the other;
* `Engine.compile_follows_steps` — compiling a chain gives the documents that its steps give, with
  their reports, and one report for each document above an unfinished one.

Design notes: the recursion of a chain begins behind its last document, so its documents are found
closest first, while they are listed in the order in which they were made. An unfinished document
settles all that is above it, whatever is written there.
-/
import DocQuery.Proofs.Chain.Ancestry
import DocQuery.Proofs.Directive.Invariant

namespace DocQuery

/-- Whether each of several documents inherits from exactly those behind it, closest first. -/
def Document.Inherit (documents : List Document) : Prop :=
  ∀ before d after, documents = before ++ d :: after → d.ancestors = after.map (·.toPage)

theorem Document.inherit_nil : Document.Inherit [] := by
  intro before d after h
  exact absurd h.symm (List.append_ne_nil_of_right_ne_nil _ (List.cons_ne_nil _ _))

theorem Document.inherit_cons {d : Document} {documents : List Document}
    (hd : d.ancestors = documents.map (·.toPage)) (h : Document.Inherit documents) :
    Document.Inherit (d :: documents) := by
  intro before d' after heq
  rcases before with _ | ⟨first, before⟩
  · obtain ⟨rfl, rfl⟩ := List.cons.inj heq
    exact hd
  · exact h before d' after (List.cons.inj heq).2

namespace Engine

/-- Whether the documents of a chain, closest first, are made one by one, each below the one made
before it, with these reports. -/
inductive Stacks (e : Engine) : List SourceText → List Document → List Report → Prop where
  | nil : Stacks e [] [] []
  | cons {source below documents d reports more} (hbelow : Stacks e below documents reports)
      (hmade : e.compileWithParents source documents.head?.toList = ⟨[d], more⟩) :
      Stacks e (source :: below) (d :: documents) (reports ++ more)

/-- Whether a text below which a chain is finished is not finished itself. The finished documents
come with their reports, and `more` are the reports of the text. -/
structure Breaks (e : Engine) (source : SourceText) (below : List SourceText)
    (documents : List Document) (reports more : List Report) : Prop where
  below : e.Stacks below documents reports
  unfinished : e.compileWithParents source documents.head?.toList = ⟨[], more⟩

variable {e : Engine} {source : SourceText} {chain above below : List SourceText}
  {documents parents : List Document} {d : Document} {reports more : List Report}

theorem compileWithParents_eq_iff {made : List Document} :
    e.compileWithParents source parents = ⟨made, more⟩ ↔
      (e.compileDocument source parents).1.toList = made ∧
        (e.compileDocument source parents).2 = more := by
  rw [compileWithParents, Compilation.mk.injEq]

/-- A text becomes one document at most. -/
theorem exists_compileWithParents (e : Engine) (source : SourceText) (parents : List Document) :
    (∃ d more, e.compileWithParents source parents = ⟨[d], more⟩) ∨
      ∃ more, e.compileWithParents source parents = ⟨[], more⟩ := by
  rw [compileWithParents]
  rcases e.compileDocument source parents with ⟨_ | d, more⟩
  · exact .inr ⟨more, rfl⟩
  · exact .inl ⟨d, more, rfl⟩

/-- A document has the name of its text and inherits from the pages of its parents. -/
theorem header_of_compileWithParents
    (h : e.compileWithParents source parents = ⟨[d], more⟩) :
    d.id = source.id ∧ d.ancestors = Document.ancestorsOf parents := by
  have hd : d ∈ (e.compileWithParents source parents).documents := by
    rw [h]
    exact List.mem_singleton_self d
  obtain ⟨tree, directives, -, -, rfl⟩ := exists_work_of_mem hd
  exact ⟨rfl, rfl⟩

namespace Stacks

theorem ids_eq (h : e.Stacks chain documents reports) :
    documents.map (·.id) = chain.map (·.id) := by
  induction h with
  | nil => rfl
  | cons _ hmade ih =>
    rw [List.map_cons, List.map_cons, (header_of_compileWithParents hmade).1, ih]

/-- The documents of a chain of different names inherit from those behind them. -/
theorem inherit (h : e.Stacks chain documents reports) (hids : (chain.map (·.id)).Nodup) :
    Document.Inherit documents := by
  induction h with
  | nil => exact Document.inherit_nil
  | @cons source below documents d reports more hbelow hmade ih =>
    have hinherit := ih (List.nodup_cons.1 hids).2
    refine Document.inherit_cons ?_ hinherit
    rw [(header_of_compileWithParents hmade).2]
    rcases documents with _ | ⟨parent, rest⟩
    · rfl
    · -- the pages of the parent are the documents below, so their names differ
      have hpages : parent.pages = (parent :: rest).map (·.toPage) := by
        rw [Document.pages, hinherit [] parent rest rfl, List.map_cons]
      have hnames : (parent.pages.map (·.id)).Nodup := by
        rw [hpages, List.map_map]
        show ((parent :: rest).map (·.id)).Nodup
        rw [hbelow.ids_eq]
        exact (List.nodup_cons.1 hids).2
      rw [← hpages]
      exact ancestorsOf_singleton hnames

/-- The loop over a chain does its steps. -/
theorem compileChain_eq (h : e.Stacks chain documents reports) :
    e.compileChain chain = (⟨documents.reverse, reports⟩, .sound documents.head?) := by
  induction h with
  | nil => rfl
  | cons _ hmade ih =>
    obtain ⟨hdocument, hreports⟩ := compileWithParents_eq_iff.1 hmade
    rw [compileChain, ih, compileNext]
    generalize e.compileDocument _ _ = made at hdocument hreports
    obtain ⟨_ | d, more⟩ := made
    · cases hdocument
    · obtain rfl := List.singleton_inj.1 hdocument
      obtain rfl := hreports
      rw [List.reverse_cons]
      rfl

end Stacks

/-- The report of a document above an unfinished one says which one that is. -/
theorem parentReport_eq (id parent : String) :
    parentReport id parent = ⟨id, "parent document '" ++ parent ++ "' failed to compile", none⟩ := by
  have hquote : "parent document '" = "parent document " ++ "'" := rfl
  have hrest : "' failed to compile" = "'" ++ " failed to compile" := rfl
  rw [parentReport, quoted, hquote, hrest]
  simp only [String.append_assoc]

/-- The loop over a chain stops at the deepest document that is not finished. -/
theorem Breaks.compileChain_eq (h : e.Breaks source below documents reports more)
    (above : List SourceText) :
    e.compileChain (above ++ source :: below) =
      (⟨documents.reverse, reports ++ more ++
        above.reverse.map fun s => parentReport s.id source.id⟩, .broken source.id) := by
  induction above with
  | nil =>
    obtain ⟨hdocument, hreports⟩ := compileWithParents_eq_iff.1 h.unfinished
    rw [List.nil_append, compileChain, h.below.compileChain_eq, compileNext]
    generalize e.compileDocument _ _ = made at hdocument hreports
    obtain ⟨_ | d, more⟩ := made
    · obtain rfl := hreports
      simp
    · cases hdocument
  | cons s above ih =>
    rw [List.cons_append, compileChain, ih, compileNext, List.reverse_cons, List.map_append,
      ← List.append_assoc]
    rfl

/-- Every chain is finished, or there is a deepest document that is not. -/
theorem stacks_or_breaks (e : Engine) (chain : List SourceText) :
    (∃ documents reports, e.Stacks chain documents reports) ∨
      ∃ above source below documents reports more, chain = above ++ source :: below ∧
        e.Breaks source below documents reports more := by
  induction chain with
  | nil => exact .inl ⟨[], [], .nil⟩
  | cons source chain ih =>
    rcases ih with ⟨documents, reports, hstacks⟩ | ⟨above, broken, below, hrest⟩
    · rcases e.exists_compileWithParents source documents.head?.toList with
        ⟨d, more, hmade⟩ | ⟨more, hmade⟩
      · exact .inl ⟨_, _, .cons hstacks hmade⟩
      · exact .inr ⟨[], source, chain, documents, reports, more, rfl, hstacks, hmade⟩
    · obtain ⟨documents, reports, more, rfl, hbreaks⟩ := hrest
      exact .inr ⟨source :: above, broken, below, documents, reports, more, rfl, hbreaks⟩

/-- Compiling a chain of different names follows its steps. If all documents are finished, they are
listed from the last one on, and each inherits from exactly those behind it. If one is the deepest
that is not, those below it are listed, and behind all reports so far stands one for each document
above it, whose texts do not matter. -/
theorem compile_follows_steps (e : Engine) {chain : List SourceText}
    (hids : (chain.map (·.id)).Nodup) :
    (∀ documents reports, e.Stacks chain documents reports →
      e.compile chain = ⟨documents.reverse, reports⟩ ∧
        documents.map (·.id) = chain.map (·.id) ∧ Document.Inherit documents) ∧
    (∀ above source below documents reports more, chain = above ++ source :: below →
      e.Breaks source below documents reports more →
        e.compile chain = ⟨documents.reverse, reports ++ more ++ above.reverse.map fun s =>
          ⟨s.id, "parent document '" ++ source.id ++ "' failed to compile", none⟩⟩ ∧
        documents.map (·.id) = below.map (·.id) ∧ Document.Inherit documents ∧
        ∀ above' : List SourceText, above'.map (·.id) = above.map (·.id) →
          e.compile (above' ++ source :: below) = e.compile chain) ∧
    ((∃ documents reports, e.Stacks chain documents reports) ∨
      ∃ above source below documents reports more, chain = above ++ source :: below ∧
        e.Breaks source below documents reports more) := by
  refine ⟨?_, ?_, e.stacks_or_breaks chain⟩
  · intro documents reports h
    exact ⟨congrArg Prod.fst h.compileChain_eq, h.ids_eq, h.inherit hids⟩
  · intro above source below documents reports more hchain h
    subst hchain
    have hcompile : ∀ above : List SourceText, e.compile (above ++ source :: below) =
        ⟨documents.reverse, reports ++ more ++ (above.map (·.id)).reverse.map fun id =>
          parentReport id source.id⟩ := by
      intro above
      rw [compile, h.compileChain_eq, ← List.map_reverse, List.map_map]
      rfl
    have hbelow : (below.map (·.id)).Nodup := by
      rw [List.map_append, List.map_cons, List.nodup_append] at hids
      exact (List.nodup_cons.1 hids.2.1).2
    refine ⟨?_, h.below.ids_eq, h.below.inherit hbelow, ?_⟩
    · rw [hcompile, ← List.map_reverse, List.map_map]
      refine congrArg _ (congrArg _ (List.map_congr_left fun s _ => ?_))
      exact parentReport_eq s.id source.id
    · intro above' hsame
      rw [hcompile, hcompile, hsame]

/-- A chain whose middle text is malformed. -/
def brokenChain : List SourceText :=
  [⟨"top", "\x7b\"B\":2\x7d"⟩, ⟨"middle", "\x7b"⟩, ⟨"base", "\x7b\"A\":1\x7d"⟩]

theorem compile_follows_steps_broken :
    let e := Engine.standard (.midnight ⟨2024, 1, 1⟩)
    (brokenChain.map (·.id)).Nodup ∧
      ∃ d fault, readJson "\x7b" = .error fault ∧ d.id = "base" ∧ d.ancestors = [] ∧
        e.compile brokenChain = ⟨[d], [.ofFault "middle" fault,
          ⟨"top", "parent document 'middle' failed to compile", none⟩]⟩ := by
  intro e
  have hids : (brokenChain.map (·.id)).Nodup := by decide
  have hbase : (e.compileDocument ⟨"base", "\x7b\"A\":1\x7d"⟩ []).1.isSome ∧
      (e.compileDocument ⟨"base", "\x7b\"A\":1\x7d"⟩ []).2 = [] := by decide +kernel
  obtain ⟨d, hd⟩ := Option.isSome_iff_exists.1 hbase.1
  have hstacks : e.Stacks [⟨"base", "\x7b\"A\":1\x7d"⟩] [d] ([] ++ []) :=
    .cons .nil (compileWithParents_eq_iff.2 ⟨by rw [List.head?_nil, Option.toList_none, hd]; rfl,
      hbase.2⟩)
  have hmalformed : (readJson "\x7b").isOk = false := by decide +kernel
  rcases hread : readJson "\x7b" with fault | tree
  · have hbreaks : e.Breaks ⟨"middle", "\x7b"⟩ [⟨"base", "\x7b\"A\":1\x7d"⟩] [d] ([] ++ [])
        [.ofFault "middle" fault] :=
      ⟨hstacks, e.compileWithParents_of_malformed _ hread⟩
    obtain ⟨hcompile, hnames, hinherit, -⟩ := (e.compile_follows_steps hids).2.1
      [⟨"top", "\x7b\"B\":2\x7d"⟩] _ _ _ _ _ rfl hbreaks
    exact ⟨hids, d, fault, rfl, (List.cons.inj hnames).1, hinherit [] d [] rfl, hcompile⟩
  · rw [hread] at hmalformed
    cases hmalformed

end Engine

end DocQuery
