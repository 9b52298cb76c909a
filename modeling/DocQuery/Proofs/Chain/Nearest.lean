/-
Names that are looked up in several documents.

* `compileExpression_identifier` — an identifier that is none of the words of the language is the
  lookup of that name;
* `Engine.query_identifier` — a query for it answers with what the first page has under that name;
* `Engine.query_nearest` — which is the document that comes first, with the documents that it
  inherits from right behind it.

Design notes: the document in which a query is evaluated has no members, so every answer comes from
the pages behind it. They begin with the pages of the first documents whatever comes later, so an
answer stays when documents are added behind it.
-/
import DocQuery.Proofs.Chain.Ancestry
import DocQuery.Proofs.Expr.Identifier
import DocQuery.Proofs.Formula.Tracing
import DocQuery.Proofs.Value.Placing

namespace DocQuery

open Time (Moment)

/-- The words of the standard language that are no names of members. -/
def reservedWords : List String :=
  ["true", "false", "null", "undefined", "this", "parent"]

variable {name : String} {documents more : List Document}

/-- A name that is no word of the language is looked up everywhere. -/
theorem beginName_standard {p : Position} (h : name ∉ reservedWords) :
    Naming.beginName ⟨.standard, []⟩ name p = .lookup (.property name .all) [] p := by
  simp only [reservedWords, List.mem_cons, List.not_mem_nil, or_false, not_or] at h
  obtain ⟨htrue, hfalse, hnull, hundefined, hthis, hparent⟩ := h
  have hqualifier : Qualifier.ofName? name = none := by
    rw [Qualifier.ofName?, if_neg hthis, if_neg hparent]
  have hconstant : (⟨.standard, []⟩ : Naming).vocabulary.constants.lookup name = none := by
    rw [List.lookup_eq_none_iff]
    intro entry hentry
    simp only [Naming.vocabulary, Dialect.standard, Vocabulary.standard, List.mem_cons,
      List.not_mem_nil, or_false] at hentry
    rcases hentry with rfl | rfl | rfl | rfl <;> simpa
  simp only [Naming.beginName, hqualifier, hconstant]
  rfl

/-- An identifier that is no word of the language is the lookup of that name. -/
theorem compileExpression_identifier (hname : Text.IsIdentifier name) (h : name ∉ reservedWords) :
    compileExpression .standard name .start =
      .ok (.lookup (.property name .all) [] .start) := by
  have hparse : parseExpression Dialect.standard.language name .start = .ok (.name name .start) :=
    parseExpression_identifier hname (operator?_before_identifier hname)
  refine Except.bind_eq_ok_iff.2 ⟨_, hparse, ?_⟩
  show (link _ none (.name name .start)).map Chain.formula = _
  rw [link, beginName_standard h]
  rfl

/-- A lookup that goes on with no steps answers with what it begins with. -/
theorem outcome_evaluate_property (c : Context) (name : String) (p : Position) :
    (evaluate c (.lookup (.property name .all) [] p)).outcome =
      .ok (.ofNode? (Page.firstMember? name c.document.pages)) := by
  rw [evaluate]
  rfl

namespace Engine

variable {e : Engine}

/-- The document of a query has nothing of its own. -/
theorem firstMember?_queryDocument :
    Page.firstMember? name (queryDocument documents).pages =
      Page.firstMember? name (Document.ancestorsOf documents) := by
  show Page.firstMember? name ([_] ++ _) = _
  rw [Page.firstMember?_append]
  rfl

/-- A query for an identifier answers with what the first page has under that name. -/
theorem query_identifier (hstandard : e.dialect = .standard) (hname : Text.IsIdentifier name)
    (h : name ∉ reservedWords) (documents : List Document) :
    e.query name documents =
      ⟨(Value.ofNode? (Page.firstMember? name (Document.ancestorsOf documents))).toNode?
        (.root queryId), []⟩ := by
  have hoperand : (do
      let f ← compileExpression e.dialect name .start
      (e.evaluateIn (queryDocument documents) f).outcome) =
      .ok (.ofNode? (Page.firstMember? name (Document.ancestorsOf documents))) := by
    rw [hstandard]
    refine Except.bind_eq_ok_iff.2 ⟨_, compileExpression_identifier hname h, ?_⟩
    rw [evaluateIn, outcome_evaluate_property, firstMember?_queryDocument]
  rw [query, hoperand]

/-- A query for an identifier answers with what the first page among the documents, each followed
by those that it inherits from, has under that name. -/
theorem query_nearest (options : Options) (now : Moment) {documents : List Document} {name : String}
    (hdocuments : Page.NamedApart (documents.flatMap Document.pages))
    (hname : Text.IsIdentifier name) (h : name ∉ reservedWords) :
    let e : Engine := ⟨.standard, options, now⟩
    (∀ before page after n, documents.flatMap Document.pages = before ++ page :: after →
        (∀ p ∈ before, p.root.member? name = none) → page.root.member? name = some n →
        ∃ m, e.query name documents = ⟨some m, []⟩ ∧ m.toJson = n.toJson) ∧
      ((∀ p ∈ documents.flatMap Document.pages, p.root.member? name = none) →
        e.query name documents = ⟨none, []⟩) ∧
      ∀ more, (e.query name documents).value.isSome →
        e.query name (documents ++ more) = e.query name documents := by
  intro e
  have hquery : ∀ documents, e.query name documents =
      ⟨(Value.ofNode? (Page.firstMember? name (Document.ancestorsOf documents))).toNode?
        (.root queryId), []⟩ := query_identifier rfl hname h
  have hfirst : Page.firstMember? name (Document.ancestorsOf documents) =
      Page.firstMember? name (documents.flatMap Document.pages) :=
    Page.firstMember?_ancestorsOf hdocuments
  refine ⟨?_, ?_, ?_⟩
  · intro before page after n hpages hbefore hpage
    rw [hquery, hfirst, Page.firstMember?_of_eq hpages hbefore hpage]
    exact ⟨_, rfl, n.toJson_moved _⟩
  · intro hnone
    have hmissing : Page.firstMember? name (documents.flatMap Document.pages) = none :=
      List.findSome?_eq_none_iff.2 hnone
    rw [hquery, hfirst, hmissing]
    rfl
  · intro more hsome
    obtain ⟨added, hadded⟩ := exists_ancestorsOf_append documents more
    rw [hquery] at hsome
    rw [hquery, hquery, hadded, Page.firstMember?_append]
    cases hanswer : Page.firstMember? name (Document.ancestorsOf documents) with
    | none =>
      rw [hanswer] at hsome
      exact absurd hsome Bool.false_ne_true
    | some n => rfl

/-- Two documents above a shared one. The first is no object, the second has `null`. -/
def familyDocuments : List Document :=
  let base : Document := .ofParents ⟨"base", .ofJson (.root "base") (.object [("N", .text "x")])⟩ []
  [.ofParents ⟨"left", .ofJson (.root "left") (.array [])⟩ [base],
   .ofParents ⟨"right", .ofJson (.root "right") (.object [("M", .null)])⟩ [base]]

theorem query_nearest_shared :
    let e : Engine := ⟨.standard, .standard, .midnight ⟨2024, 1, 1⟩⟩
    Page.NamedApart (familyDocuments.flatMap Document.pages) ∧ Text.IsIdentifier "M" ∧
      "M" ∉ reservedWords ∧
      (∃ m, e.query "M" familyDocuments = ⟨some m, []⟩ ∧ m.toJson = .null) ∧
      ∀ more, e.query "M" (familyDocuments ++ more) = e.query "M" familyDocuments := by
  intro e
  have hapart : Page.NamedApart (familyDocuments.flatMap Document.pages) := by
    intro p hp q hq hid
    change p ∈ [_, _, _, _] at hp
    change q ∈ [_, _, _, _] at hq
    simp only [List.mem_cons, List.not_mem_nil, or_false] at hp hq
    rcases hp with rfl | rfl | rfl | rfl <;> rcases hq with rfl | rfl | rfl | rfl <;>
      first | rfl | exact absurd hid (by decide)
  have hname : Text.IsIdentifier "M" := ⟨'M', [], rfl, by decide +kernel, by simp⟩
  have hword : "M" ∉ reservedWords := by decide
  obtain ⟨hfound, -, hmore⟩ :=
    query_nearest .standard (.midnight ⟨2024, 1, 1⟩) hapart hname hword
  obtain ⟨m, hm, hjson⟩ := hfound [_, _] _ [_] (.null ⟨"right", [.member "M"]⟩) rfl
    (by simp only [List.mem_cons, List.not_mem_nil, or_false]; rintro p (rfl | rfl) <;> rfl) rfl
  refine ⟨hapart, hname, hword, ⟨m, hm, hjson⟩, fun more => hmore more ?_⟩
  rw [hm]
  rfl

end Engine

end DocQuery
