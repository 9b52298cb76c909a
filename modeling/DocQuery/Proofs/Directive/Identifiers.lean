/-
What the names of documents matter.

* `IsRenaming` — a relation between names that neither joins nor splits them;
* `Correspondence.renamed` — values that are the same but for the documents in their places;
* `Engine.compileChain_renamed` — a chain of renamed texts becomes renamed documents;
* `Engine.queryText_renamed` — its queries have the same values, and the same reports but for names;
* `Engine.queryText_joined` — names that are joined may hide a document.

Design notes: the work on a document compares names when it copies a value, when it asks whether a
place is still to change and when it lines up ancestors, and always for being equal. A query is
evaluated in a document of a fixed name, which may also be the name of one of the chain; its values
are therefore compared without their places.
-/
import DocQuery.Proofs.Directive.Matching
import DocQuery.Proofs.Formula.Placeless

namespace DocQuery

/-- Whether a relation between names is one-to-one. -/
def IsRenaming (Same : String → String → Prop) : Prop :=
  ∀ a a' b b', Same a a' → Same b b' → (a = b ↔ a' = b')

/-! ### Renamed values -/

section Renamed

variable {Same : String → String → Prop}

/-- Whether two paths have the same keys in documents of related names. -/
structure Path.Renamed (Same : String → String → Prop) (p p' : Path) : Prop where
  document : Same p.document p'.document
  keys_eq : p'.keys = p.keys

/-- Whether two places are at related paths, and have related sources or none. -/
structure Place.Renamed (Same : String → String → Prop) (p p' : Place) : Prop where
  path : p.path.Renamed Same p'.path
  source : Option.Rel (Path.Renamed Same) p.source p'.source

mutual

/-- Whether two values are the same but for the documents in their places, which are related. -/
inductive Node.Renamed (Same : String → String → Prop) : Node → Node → Prop
  | object {p p' : Place} {ms ms' : List (String × Node)} : p.Renamed Same p' →
    Node.MembersRenamed Same ms ms' → Renamed Same (.object p ms) (.object p' ms')
  | array {p p' : Place} {ns ns' : List Node} : p.Renamed Same p' →
    Node.ItemsRenamed Same ns ns' → Renamed Same (.array p ns) (.array p' ns')
  | scalar {p p' : Place} (s : Scalar) : p.Renamed Same p' →
    Renamed Same (.scalar p s) (.scalar p' s)

/-- Whether members have the same names and renamed values. -/
inductive Node.MembersRenamed (Same : String → String → Prop) :
    List (String × Node) → List (String × Node) → Prop
  | nil : MembersRenamed Same [] []
  | cons (name : String) {n n' : Node} {ms ms' : List (String × Node)} : n.Renamed Same n' →
    MembersRenamed Same ms ms' → MembersRenamed Same ((name, n) :: ms) ((name, n') :: ms')

/-- Whether items are renamed. -/
inductive Node.ItemsRenamed (Same : String → String → Prop) : List Node → List Node → Prop
  | nil : ItemsRenamed Same [] []
  | cons {n n' : Node} {ns ns' : List Node} : n.Renamed Same n' →
    ItemsRenamed Same ns ns' → ItemsRenamed Same (n :: ns) (n' :: ns')

end

namespace Node

theorem membersRenamed_iff {ms ms' : List (String × Node)} :
    MembersRenamed Same ms ms' ↔
      List.Forall₂ (fun m m' => m.1 = m'.1 ∧ m.2.Renamed Same m'.2) ms ms' := by
  constructor
  · intro h
    induction ms generalizing ms' with
    | nil =>
      cases h
      exact .nil
    | cons m ms ih =>
      cases h with
      | cons name hn hms => exact .cons ⟨rfl, hn⟩ (ih hms)
  · intro h
    induction h with
    | nil => exact .nil
    | @cons m m' _ _ hm _ ih =>
      obtain ⟨name, n⟩ := m
      obtain ⟨name', n'⟩ := m'
      obtain ⟨rfl, hn⟩ := hm
      exact .cons name hn ih

theorem itemsRenamed_iff {ns ns' : List Node} :
    ItemsRenamed Same ns ns' ↔ List.Forall₂ (Renamed Same) ns ns' := by
  constructor
  · intro h
    induction ns generalizing ns' with
    | nil =>
      cases h
      exact .nil
    | cons n ns ih =>
      cases h with
      | cons hn hns => exact .cons hn (ih hns)
  · intro h
    induction h with
    | nil => exact .nil
    | cons hn _ ih => exact .cons hn ih

theorem Renamed.place {n n' : Node} (h : n.Renamed Same n') : n.place.Renamed Same n'.place := by
  cases h <;> assumption

end Node

theorem Place.Renamed.copiedTo (hSame : IsRenaming Same) {p p' : Place} (h : p.Renamed Same p')
    {path path' : Path} (hpath : path.Renamed Same path') :
    (p.copiedTo path).Renamed Same (p'.copiedTo path') := by
  refine ⟨hpath, ?_⟩
  -- a copy remembers the first place unless it stays in the document, as the other one does
  have hiff := hSame _ _ _ _ h.path.document hpath.document
  have hhere : Option.Rel (Path.Renamed Same)
      (if p.path.document = path.document then none else some p.path)
      (if p'.path.document = path'.document then none else some p'.path) := by
    by_cases hdocument : p.path.document = path.document
    · rw [if_pos hdocument, if_pos (hiff.1 hdocument)]
      exact .none
    · rw [if_neg hdocument, if_neg (mt hiff.2 hdocument)]
      exact .some h.path
  have hsource := h.source
  rw [Place.copiedTo, Place.copiedTo]
  generalize p.source = source at hsource ⊢
  generalize p'.source = source' at hsource ⊢
  cases hsource with
  | none => exact hhere
  | some hfirst => exact .some hfirst

theorem Path.Renamed.child {path path' : Path} (h : path.Renamed Same path') (key : Key) :
    (path.child key).Renamed Same (path'.child key) :=
  ⟨h.document, congrArg (· ++ [key]) h.keys_eq⟩

namespace Node

mutual

/-- Renamed values have renamed copies. -/
theorem Renamed.copiedTo (hSame : IsRenaming Same) : {n n' : Node} → n.Renamed Same n' →
    {path path' : Path} → path.Renamed Same path' →
      (n.copiedTo path).Renamed Same (n'.copiedTo path')
  | .object p ms, _, h, _, _, hpath => by
    cases h with
    | object hp hms => exact .object (hp.copiedTo hSame hpath) (hms.copied hSame hpath)
  | .array p ns, _, h, _, _, hpath => by
    cases h with
    | array hp hns => exact .array (hp.copiedTo hSame hpath) (hns.copied hSame 0 hpath)
  | .scalar p s, _, h, _, _, hpath => by
    cases h with
    | scalar _ hp => exact .scalar s (hp.copiedTo hSame hpath)

theorem MembersRenamed.copied (hSame : IsRenaming Same) : {ms ms' : List (String × Node)} →
    MembersRenamed Same ms ms' → {path path' : Path} → path.Renamed Same path' →
      MembersRenamed Same (copyMembers path ms) (copyMembers path' ms')
  | [], _, h, _, _, _ => by
    cases h
    exact .nil
  | (name, n) :: ms, _, h, _, _, hpath => by
    cases h with
    | cons _ hn hms =>
      exact .cons name (hn.copiedTo hSame (hpath.child _)) (hms.copied hSame hpath)

theorem ItemsRenamed.copied (hSame : IsRenaming Same) (index : Nat) : {ns ns' : List Node} →
    ItemsRenamed Same ns ns' → {path path' : Path} → path.Renamed Same path' →
      ItemsRenamed Same (copyItems path index ns) (copyItems path' index ns')
  | [], _, h, _, _, _ => by
    cases h
    exact .nil
  | n :: ns, _, h, _, _, hpath => by
    cases h with
    | cons hn hns =>
      exact .cons (hn.copiedTo hSame (hpath.child _)) (hns.copied hSame (index + 1) hpath)

end

end Node

namespace Correspondence

/-- The correspondence of renamed values, with the same positions. -/
def renamed (Same : String → String → Prop) : Correspondence where
  node := Node.Renamed Same
  path := Path.Renamed Same
  position := Eq
  form h := by
    cases h with
    | object _ hms => exact .object _ _ (Node.membersRenamed_iff.1 hms)
    | array _ hns => exact .array _ _ (Node.itemsRenamed_iff.1 hns)
    | scalar s _ => exact .scalar _ _ s
  path_of_node h := h.place.path
  computed h s := .scalar s ⟨h.place.path, .none⟩

theorem renamed_isFaithful (hSame : IsRenaming Same) : (renamed Same).IsFaithful where
  keys_eq h := h.keys_eq
  document_iff h h' := hSame _ _ _ _ h.document h'.document

/-- What is built alike in documents of related names is renamed. -/
theorem renamed_builds (hSame : IsRenaming Same) {id id' : String} (h : Same id id') :
    (renamed Same).Builds id id' where
  path _ := ⟨h, rfl⟩
  scalar _ s := .scalar s ⟨⟨h, rfl⟩, .none⟩
  array _ {_ _} hns _ _ := .array ⟨⟨h, rfl⟩, .none⟩ (Node.itemsRenamed_iff.2 hns)
  object _ {_ _} hms _ := .object ⟨⟨h, rfl⟩, .none⟩
    (Node.membersRenamed_iff.2 (hms.imp fun _ _ hm => ⟨hm.name_eq.symm, hm.value⟩))
  copied _ {_ _} hn := Node.Renamed.copiedTo hSame hn ⟨h, rfl⟩

end Correspondence

/-! ### Renamed documents -/

/-- Whether two reports are the same but for the names of documents, which are related. -/
inductive Report.Renamed (Same : String → String → Prop) : Report → Report → Prop
  | ofFault (fault : Fault) {id id' : String} : Same id id' →
    Renamed Same (.ofFault id fault) (.ofFault id' fault)
  | ofParent {id id' parent parent' : String} : Same id id' → Same parent parent' →
    Renamed Same (parentReport id parent) (parentReport id' parent')
  | ofQuery (fault : Fault) : Renamed Same (.ofFault queryId fault) (.ofFault queryId fault)

/-- Whether two chains came to nothing at related names, or have renamed closest documents. -/
inductive Foundation.Renamed (Same : String → String → Prop) : Foundation → Foundation → Prop
  | sound {d d' : Option Document} :
    Option.Rel (Document.Corresponds (.renamed Same)) d d' → Renamed Same (.sound d) (.sound d')
  | broken {id id' : String} : Same id id' → Renamed Same (.broken id) (.broken id')

/-- Whether two texts are the same and have related names. -/
structure SourceText.Renamed (Same : String → String → Prop) (s s' : SourceText) : Prop where
  text_eq : s'.text = s.text
  id : Same s.id s'.id

namespace Engine

variable {e : Engine} {source source' : SourceText}

/-- A text below renamed parents becomes a renamed document. -/
theorem compileDocument_renamed (hSame : IsRenaming Same)
    (hv : e.dialect.vocabulary.Keeps (.renamed Same)) (h : source.Renamed Same source')
    {parents parents' : List Document}
    (hparents : List.Forall₂ (Document.Corresponds (.renamed Same)) parents parents') :
    Option.Rel (Document.Corresponds (.renamed Same)) (e.compileDocument source parents).1
        (e.compileDocument source' parents').1 ∧
      List.Forall₂ (Report.Renamed Same) (e.compileDocument source parents).2
        (e.compileDocument source' parents').2 := by
  have hC := Correspondence.renamed_isFaithful hSame
  have hB := Correspondence.renamed_builds hSame h.id
  have hw : Workshop.Corresponds (.renamed Same) ⟨source.id, parents, e.options, e.now⟩
      ⟨source'.id, parents', e.options, e.now⟩ := ⟨hB, hparents, rfl, rfl⟩
  rw [compileDocument, compileDocument, h.text_eq]
  rcases readJson source.text with fault | tree
  · exact ⟨.none, .cons (.ofFault fault h.id) .nil⟩
  · simp only [Workshop.run]
    rcases hdetect : detect e.dialect (.ofSource tree) with faults | directives
    · refine ⟨.none, ?_⟩
      show List.Forall₂ _ (faults.map _) (faults.map _)
      rw [List.forall₂_map_left_iff, List.forall₂_map_right_iff, List.forall₂_same]
      exact fun fault _ => .ofFault fault h.id
    · have hstart : Workshop.State.Corresponds (.renamed Same) ⟨.ofSource tree, []⟩
          ⟨.ofSource tree, []⟩ := ⟨Draft.ofSource_corresponds _ tree, .nil⟩
      have hlast := hw.solve hC (fun _ => rfl) hstart directives.length
        (detect_kept hv (fun _ => rfl) hdetect)
      have hpage : Page.Corresponds (.renamed Same)
          ⟨source.id, (Workshop.solve ⟨source.id, parents, e.options, e.now⟩ directives.length
            ⟨.ofSource tree, []⟩ directives).draft.freeze source.id⟩
          ⟨source'.id, (Workshop.solve ⟨source'.id, parents', e.options, e.now⟩ directives.length
            ⟨.ofSource tree, []⟩ directives).draft.freeze source'.id⟩ :=
        ⟨hB.path [], hlast.draft.freeze hB hC⟩
      refine ⟨.some (.ofParents hC hpage hparents), ?_⟩
      refine List.rel_map (fun fault fault' hfault => ?_) hlast.faults
      rw [hfault.eq fun _ _ => id]
      exact .ofFault fault h.id

/-- A chain of renamed texts becomes renamed documents. -/
theorem compileChain_renamed (hSame : IsRenaming Same)
    (hv : e.dialect.vocabulary.Keeps (.renamed Same)) {chain chain' : List SourceText}
    (h : List.Forall₂ (SourceText.Renamed Same) chain chain') :
    List.Forall₂ (Document.Corresponds (.renamed Same)) (e.compileChain chain).1.documents
        (e.compileChain chain').1.documents ∧
      List.Forall₂ (Report.Renamed Same) (e.compileChain chain).1.reports
        (e.compileChain chain').1.reports ∧
      (e.compileChain chain).2.Renamed Same (e.compileChain chain').2 := by
  induction h with
  | nil => exact ⟨.nil, .nil, .sound .none⟩
  | @cons source source' parents parents' hsource _ ih =>
    obtain ⟨hdocuments, hreports, hfoundation⟩ := ih
    rw [compileChain, compileChain]
    generalize e.compileChain parents = found at hdocuments hreports hfoundation ⊢
    generalize e.compileChain parents' = found' at hdocuments hreports hfoundation ⊢
    obtain ⟨below, foundation⟩ := found
    obtain ⟨below', foundation'⟩ := found'
    cases hfoundation with
    | broken hid =>
      refine ⟨hdocuments, ?_, .broken hid⟩
      exact List.rel_append hreports (.cons (.ofParent hsource.id hid) .nil)
    | @sound parent parent' hparent =>
      obtain ⟨hdocument, hmore⟩ :=
        compileDocument_renamed hSame hv hsource (Correspondence.toList hparent)
      rw [compileNext, compileNext]
      generalize e.compileDocument source parent.toList = made at hdocument hmore ⊢
      generalize e.compileDocument source' parent'.toList = made' at hdocument hmore ⊢
      obtain ⟨document, reports⟩ := made
      obtain ⟨document', reports'⟩ := made'
      refine ⟨List.rel_append hdocuments (Correspondence.toList hdocument),
        List.rel_append hreports hmore, ?_⟩
      cases hdocument with
      | none => exact .broken hsource.id
      | some hd => exact .sound (.some hd)

/-- Renamed documents answer a query alike. -/
theorem query_renamed (hSame : IsRenaming Same) (hv : e.dialect.vocabulary.Keeps (.placeless Eq))
    (expression : String) {d d' : Document} (h : d.Corresponds (.renamed Same) d') :
    (e.query expression [d']).value.map Node.toJson =
        (e.query expression [d]).value.map Node.toJson ∧
      List.Forall₂ (Report.Renamed Same) (e.query expression [d]).reports
        (e.query expression [d']).reports := by
  -- the ancestors are lined up by their names, and from there on the names do not matter
  have hancestors : List.Forall₂ (Page.Corresponds (.placeless Eq)) (Document.ancestorsOf [d])
      (Document.ancestorsOf [d']) :=
    (ancestorsOf_corresponds (Correspondence.renamed_isFaithful hSame) (.cons h .nil)).imp
      fun _ _ hp => ⟨trivial, Correspondence.outline_eq hp.root⟩
  have hdocument : (queryDocument [d]).Corresponds (.placeless Eq) (queryDocument [d']) :=
    ⟨⟨trivial, rfl⟩, hancestors⟩
  rcases e.query_eq expression with ⟨fault, -, heq⟩ | ⟨f, hf, heq⟩
  · rw [heq, heq]
    exact ⟨rfl, .cons (.ofQuery fault) .nil⟩
  · have hruns := (evaluate_corresponds (hdocument.context (fun _ => rfl) e.options e.now _)
      (compileExpression_kept hv (fun _ => rfl) hf)).outcome
    rw [heq, heq]
    generalize (evaluate ⟨queryDocument [d], e.options, e.now, []⟩ f).outcome = x at hruns ⊢
    generalize (evaluate ⟨queryDocument [d'], e.options, e.now, []⟩ f).outcome = x' at hruns ⊢
    cases hruns with
    | ok hvalue => exact ⟨hvalue.toJson_eq _, .nil⟩
    | error hfault =>
      rw [hfault.eq fun _ _ => id]
      exact ⟨rfl, .cons (.ofQuery _) .nil⟩

/-- The documents of related names that come first are renamed. -/
theorem document?_renamed (hSame : IsRenaming Same) {c c' : Compilation}
    (h : List.Forall₂ (Document.Corresponds (.renamed Same)) c.documents c'.documents)
    {id id' : String} (hid : Same id id') :
    Option.Rel (Document.Corresponds (.renamed Same)) (c.document? id) (c'.document? id') := by
  rw [Compilation.document?, Compilation.document?]
  generalize c.documents = ds at h ⊢
  generalize c'.documents = ds' at h ⊢
  induction h with
  | nil => exact .none
  | @cons d d' _ _ hd _ ih =>
    have hiff := hSame _ _ _ _ hd.page.path.document hid
    have hsame : (d'.id == id') = (d.id == id) := by
      rw [Bool.eq_iff_iff, beq_iff_eq, beq_iff_eq]
      exact hiff.symm
    rw [List.find?_cons, List.find?_cons, hsame]
    split
    · exact .some hd
    · exact ih

end Engine

end Renamed

/-! ### Chains of the same texts -/

/-- Whether two names are at one place of two chains. -/
def Counterparts (chain chain' : List SourceText) (id id' : String) : Prop :=
  (id, id') ∈ (chain.map (·.id)).zip (chain'.map (·.id))

theorem forall₂_renamed {Same : String → String → Prop} {chain chain' : List SourceText}
    (htexts : chain'.map (·.text) = chain.map (·.text))
    (hids : ∀ id id', Counterparts chain chain' id id' → Same id id') :
    List.Forall₂ (SourceText.Renamed Same) chain chain' := by
  induction chain generalizing chain' with
  | nil =>
    rw [List.map_eq_nil_iff.1 htexts]
    exact .nil
  | cons source chain ih =>
    cases chain' with
    | nil => cases htexts
    | cons source' chain' =>
      obtain ⟨htext, hrest⟩ := List.cons.inj htexts
      refine .cons ⟨htext, hids _ _ List.mem_cons_self⟩ (ih hrest fun id id' hin => ?_)
      exact hids id id' (List.mem_cons_of_mem _ hin)

namespace Engine

/-- Names of documents do not matter, as long as two documents have one name in both chains or in
none: then a query has the same value, and the same reports but for the names in them. -/
theorem queryText_renamed (e : Engine) (hv : ∀ C, e.dialect.vocabulary.Keeps C)
    (expression : String) {chain chain' : List SourceText}
    (htexts : chain'.map (·.text) = chain.map (·.text))
    (hids : IsRenaming (Counterparts chain chain')) :
    (e.queryText expression chain').value.map Node.toJson =
        (e.queryText expression chain).value.map Node.toJson ∧
      List.Forall₂ (Report.Renamed (Counterparts chain chain'))
        (e.queryText expression chain).reports (e.queryText expression chain').reports := by
  have hchain := forall₂_renamed htexts fun _ _ => id
  obtain ⟨hdocuments, hreports, -⟩ := compileChain_renamed hids (hv _) hchain
  have hclosest : Option.Rel (Document.Corresponds (.renamed (Counterparts chain chain')))
      ((e.compile chain).closest? chain) ((e.compile chain').closest? chain') := by
    rw [Compilation.closest?, Compilation.closest?]
    generalize hSame : Counterparts chain chain' = Same at *
    cases hchain with
    | nil => exact .none
    | cons hsource => exact document?_renamed hids hdocuments hsource.id
  rw [queryText, queryText]
  generalize (e.compile chain).closest? chain = found at hclosest ⊢
  generalize (e.compile chain').closest? chain' = found' at hclosest ⊢
  cases hclosest with
  | none => exact ⟨rfl, hreports⟩
  | some hd =>
    obtain ⟨hvalue, hmore⟩ := query_renamed hids (hv _) expression hd
    exact ⟨hvalue, List.rel_append hreports hmore⟩

/-- A chain in which a member is found behind another document, with the given names. -/
def buriedChain (id parent grandparent : String) : List SourceText :=
  [⟨id, "\x7b\"B\":\"$value(A)\"\x7d"⟩, ⟨parent, "\x7b\"A\":[\"x\"]\x7d"⟩,
    ⟨grandparent, "\x7b\"X\":\"$value(Y:A)\",\"A\":true\x7d"⟩]

theorem queryText_renamed_buried :
    let e := Engine.standard (.midnight ⟨2024, 1, 1⟩)
    let answer := e.queryText "B" (buriedChain "C" "P" "P")
    let answer' := e.queryText "B" (buriedChain "P" "Query" "Query")
    ∃ n, answer.value = some n ∧ answer'.value.map Node.toJson = some n.toJson ∧
      answer.reports = [] ∧ answer'.reports = [] := by
  intro e answer answer'
  have hids : IsRenaming (Counterparts (buriedChain "C" "P" "P")
      (buriedChain "P" "Query" "Query")) := by
    intro a a' b b' h h'
    simp only [Counterparts, buriedChain, List.map_cons, List.map_nil, List.zip_cons_cons,
      List.zip_nil_right, List.mem_cons, Prod.mk.injEq, List.not_mem_nil, or_false] at h h'
    rcases h with ⟨rfl, rfl⟩ | ⟨rfl, rfl⟩ | ⟨rfl, rfl⟩ <;>
      rcases h' with ⟨rfl, rfl⟩ | ⟨rfl, rfl⟩ | ⟨rfl, rfl⟩ <;> decide
  have htexts : (buriedChain "P" "Query" "Query").map (·.text) =
      (buriedChain "C" "P" "P").map (·.text) := rfl
  obtain ⟨hvalue, hreports⟩ :=
    queryText_renamed e (fun C => Vocabulary.standard_keeps C) "B" htexts hids
  obtain ⟨n, hn⟩ := Option.isSome_iff_exists.1 (show answer.value.isSome by decide +kernel)
  have hnone : answer.reports = [] := List.length_eq_zero_iff.1 (by decide +kernel)
  have hlength := hreports.length_eq
  refine ⟨n, hn, ?_, hnone, ?_⟩
  · rw [hvalue]
    exact congrArg (Option.map Node.toJson) hn
  · rw [show (e.queryText "B" (buriedChain "C" "P" "P")).reports = [] from hnone] at hlength
    exact List.length_eq_zero_iff.1 hlength.symm

/-- A document behind another one of its name is none of the ancestors. -/
theorem queryText_joined :
    let e := Engine.standard (.midnight ⟨2024, 1, 1⟩)
    (e.queryText "X"
        [⟨"C", "\x7b\x7d"⟩, ⟨"P", "\x7b\x7d"⟩, ⟨"Q", "\x7b\"X\":1\x7d"⟩]).value.isSome ∧
      (e.queryText "X"
        [⟨"C", "\x7b\x7d"⟩, ⟨"P", "\x7b\x7d"⟩, ⟨"P", "\x7b\"X\":1\x7d"⟩]).value.isNone := by
  decide +kernel

end Engine

end DocQuery
