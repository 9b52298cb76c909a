/-
The work on drafts that a compilation cannot tell apart.

* `Page.Corresponds`, `Document.Corresponds`, `Workshop.Corresponds` — documents and what they are
  worked on with;
* `Action.IsKept` — an action whose formulas respect a correspondence, as all that are detected do;
* `Draft.Corresponds.write` — one result leaves corresponding drafts;
* `Workshop.Corresponds.solve` — and so does the whole work;
* `Engine.states_correspond` — in particular, drafts that correspond to themselves go on doing so.

Design notes: the two drafts have their directives at the same cells, and the places that are still
to change lie alike in both, so the same attempts wait. A relation may also single out some values
and relate them to themselves; then the work says that nothing else is ever written.
-/
import DocQuery.Proofs.Directive.Invariant
import DocQuery.Proofs.Draft.Matching
import DocQuery.Proofs.Formula.Positions

namespace DocQuery

open Correspondence (Outcomes Runs)

variable {C : Correspondence}

/-! ### Documents -/

/-- Whether two pages have names that correspond and values that do. -/
structure Page.Corresponds (C : Correspondence) (p p' : Page) : Prop where
  path : C.path (.root p.id) (.root p'.id)
  root : C.node p.root p'.root

/-- Whether two documents and all that they inherit from correspond. -/
structure Document.Corresponds (C : Correspondence) (d d' : Document) : Prop where
  page : d.toPage.Corresponds C d'.toPage
  ancestors : List.Forall₂ (Page.Corresponds C) d.ancestors d'.ancestors

section Pages

variable {ps ps' : List Page} {documents documents' : List Document}

theorem addPage_corresponds (hC : C.IsFaithful) (h : List.Forall₂ (Page.Corresponds C) ps ps')
    {p p' : Page} (hp : p.Corresponds C p') :
    List.Forall₂ (Page.Corresponds C) (addPage ps p) (addPage ps' p') := by
  have hany : (ps'.any fun q => q.id == p'.id) = ps.any fun q => q.id == p.id := by
    induction h with
    | nil => rfl
    | @cons q q' _ _ hq _ ih =>
      have hiff : q.id = p.id ↔ q'.id = p'.id := hC.document_iff hq.path hp.path
      rw [List.any_cons, List.any_cons, ih]
      congr 1
      rw [Bool.eq_iff_iff, beq_iff_eq, beq_iff_eq]
      exact hiff.symm
  rw [addPage, addPage, hany]
  split
  · exact h
  · exact List.rel_append h (.cons hp .nil)

theorem Document.Corresponds.pages {d d' : Document} (h : d.Corresponds C d') :
    List.Forall₂ (Page.Corresponds C) d.pages d'.pages :=
  .cons h.page h.ancestors

/-- The pages of corresponding parents are kept or left out alike. -/
theorem ancestorsOf_corresponds (hC : C.IsFaithful)
    (h : List.Forall₂ (Document.Corresponds C) documents documents') :
    List.Forall₂ (Page.Corresponds C) (Document.ancestorsOf documents)
      (Document.ancestorsOf documents') := by
  have hpages : List.Forall₂ (Page.Corresponds C) (documents.flatMap Document.pages)
      (documents'.flatMap Document.pages) :=
    List.rel_flatMap h fun _ _ hd => hd.pages
  rw [Document.ancestorsOf, Document.ancestorsOf]
  generalize documents.flatMap Document.pages = more at hpages ⊢
  generalize documents'.flatMap Document.pages = more' at hpages ⊢
  have hall : ∀ kept kept', List.Forall₂ (Page.Corresponds C) kept kept' →
      List.Forall₂ (Page.Corresponds C) (more.foldl addPage kept) (more'.foldl addPage kept') := by
    induction hpages with
    | nil => exact fun _ _ hkept => hkept
    | cons hp _ ih => exact fun _ _ hkept => ih _ _ (addPage_corresponds hC hkept hp)
  exact hall [] [] .nil

theorem mem_of_mem_ancestorsOf {page : Page} (h : page ∈ Document.ancestorsOf documents) :
    page ∈ documents.flatMap Document.pages := by
  rw [Document.ancestorsOf] at h
  generalize documents.flatMap Document.pages = more at h ⊢
  have hall : ∀ kept, page ∈ more.foldl addPage kept → page ∈ kept ++ more := by
    clear h
    induction more with
    | nil => simp
    | cons p more ih =>
      intro kept h
      have hadded : page ∈ addPage kept p → page ∈ kept ++ [p] := by
        rw [addPage]
        split
        · exact List.mem_append_left _
        · exact id
      rcases List.mem_append.1 (ih _ h) with h | h
      · rw [List.append_cons]
        exact List.mem_append_left _ (hadded h)
      · simp [h]
  exact hall [] h

theorem firstMember?_corresponds (h : List.Forall₂ (Page.Corresponds C) ps ps') (name : String) :
    Option.Rel C.node (Page.firstMember? name ps) (Page.firstMember? name ps') := by
  induction h with
  | nil => exact .none
  | @cons p p' _ _ hp _ ih =>
    have hmember := Correspondence.member? hp.root name
    rw [Page.firstMember?, Page.firstMember?] at ih ⊢
    rw [List.findSome?_cons, List.findSome?_cons]
    generalize p.root.member? name = found at hmember ⊢
    generalize p'.root.member? name = found' at hmember ⊢
    cases hmember with
    | none => exact ih
    | some hn => exact .some hn

end Pages

theorem Document.Corresponds.scope {d d' : Document} (h : d.Corresponds C d') (scope : Scope) :
    List.Forall₂ (Page.Corresponds C) (scope.pages d) (scope.pages d') := by
  cases scope with
  | all => exact h.pages
  | own => exact .cons h.page .nil
  | inherited => exact h.ancestors

/-- Corresponding documents are corresponding contexts of formulas. -/
theorem Document.Corresponds.context {d d' : Document} (h : d.Corresponds C d')
    (hcomputed : ∀ s, C.node (.scalar (.at (.root d.id)) s) (.scalar (.at (.root d'.id)) s))
    (options : Options) (now : Time.Moment) (Begins : Start → Prop) :
    Context.Corresponds C Begins ⟨d, options, now, []⟩ ⟨d', options, now, []⟩ where
  options_eq := rfl
  now_eq := rfl
  root_path := C.path_of_node h.page.root
  computed := hcomputed
  property name scope _ := firstMember?_corresponds (h.scope scope) name
  this _ := h.page.root
  parent _ := by
    have hancestors := h.ancestors
    simp only
    generalize d.ancestors = pages at hancestors ⊢
    generalize d'.ancestors = pages' at hancestors ⊢
    cases hancestors with
    | nil => exact .none
    | cons hp _ => exact .some hp.root
  bindings := .nil

/-- Whether two documents are worked on with the same, below corresponding parents. -/
structure Workshop.Corresponds (C : Correspondence) (w w' : Workshop) : Prop where
  builds : C.Builds w.id w'.id
  parents : List.Forall₂ (Document.Corresponds C) w.parents w'.parents
  options_eq : w'.options = w.options
  now_eq : w'.now = w.now

/-- A page below corresponding parents. -/
theorem Document.Corresponds.ofParents (hC : C.IsFaithful) {p p' : Page} (hp : p.Corresponds C p')
    {documents documents' : List Document}
    (h : List.Forall₂ (Document.Corresponds C) documents documents') :
    (Document.ofParents p documents).Corresponds C (.ofParents p' documents') :=
  ⟨hp, ancestorsOf_corresponds hC h⟩

namespace Workshop.Corresponds

variable {w w' : Workshop} {d d' : Draft}

theorem context (h : w.Corresponds C w') (hC : C.IsFaithful) (hd : d.Corresponds C d') :
    (w.context d).Corresponds C (fun _ => True) (w'.context d') := by
  rw [Workshop.context, Workshop.context, h.options_eq, h.now_eq]
  have hpage : Page.Corresponds C ⟨w.id, d.freeze w.id⟩ ⟨w'.id, d'.freeze w'.id⟩ :=
    ⟨h.builds.path [], hd.freeze h.builds hC⟩
  exact (Document.Corresponds.ofParents hC hpage h.parents).context (h.builds.scalar []) _ _ _

end Workshop.Corresponds

/-! ### Actions -/

/-- Whether the formulas of an action respect a correspondence, wherever their lookups begin. -/
def Action.IsKept (C : Correspondence) : Action → Prop
  | copyFields f | merge f | value f => f.Corresponds C (fun _ => True) f
  | interpolate parts => ∀ f, Part.formula f ∈ parts → f.Corresponds C (fun _ => True) f

section Detection

variable {d : Dialect} {f : Formula} {p : Position}

/-- The formula of a text respects a correspondence that its vocabulary respects. -/
theorem compileExpression_kept (hv : d.vocabulary.Keeps C) (hposition : ∀ p, C.position p p)
    {text : String} (h : compileExpression d text p = .ok f) :
    f.Corresponds C (fun _ => True) f := by
  obtain ⟨e, _, hf⟩ := Except.bind_eq_ok_iff.1 h
  have hboth := @compile_corresponds C (fun _ => True) (fun _ _ _ => trivial) ⟨d, []⟩ hv _ _
    (Expr.sameShape_refl hposition e)
    fun _ _ => ⟨trivial, fun _ _ => ⟨trivial, fun _ => trivial⟩⟩
  rw [hf] at hboth
  cases hboth with
  | ok hcorresponds => exact hcorresponds

/-- Every action that is found in a draft respects what its vocabulary respects. -/
theorem detect_kept (hv : d.vocabulary.Keeps C) (hposition : ∀ p, C.position p p) {draft : Draft}
    {directives : List Directive} (h : detect d draft = .ok directives) :
    ∀ x ∈ directives, x.action.IsKept C := by
  intro x hx
  have hcompiled := (directiveOf_spec (mem_of_detect h hx).2).1
  have hall : ∀ f, x.action.Has f → f.Corresponds C (fun _ => True) f := by
    intro f hf
    obtain ⟨text, p, htext⟩ := hcompiled f hf
    exact compileExpression_kept hv hposition htext
  rcases x with ⟨cell, f | f | f | parts⟩
  · exact hall f (.copyFields f)
  · exact hall f (.merge f)
  · exact hall f (.value f)
  · exact fun f hf => hall f (.part hf)

end Detection

theorem joinParts_corresponds {Begins : Start → Prop} {c c' : Context}
    (hc : c.Corresponds C Begins c') : {parts : List Part} →
    (∀ f, Part.formula f ∈ parts → f.Corresponds C Begins f) →
      C.Runs Eq (joinParts c parts) (joinParts c' parts)
  | [], _ => .pure rfl
  | .text content :: parts, h => by
    rw [joinParts, joinParts]
    exact (joinParts_corresponds hc fun f hf => h f (List.mem_cons_of_mem _ hf)).bind_eq
      fun _ => .pure rfl
  | .formula f :: parts, h => by
    have hf := h f List.mem_cons_self
    rw [joinParts, joinParts]
    refine (evaluate_corresponds hc hf).bind fun v v' hv => ?_
    refine (Runs.ofExcept (Correspondence.display hv hf.position)).bind_eq fun s => ?_
    exact (joinParts_corresponds hc fun f hf => h f (List.mem_cons_of_mem _ hf)).bind_eq
      fun _ => .pure rfl

/-- An action gives corresponding values in corresponding contexts. -/
theorem Action.compute_corresponds {c c' : Context} (hc : c.Corresponds C (fun _ => True) c')
    {a : Action} (ha : a.IsKept C) : C.Runs C.Values (a.compute c) (a.compute c') := by
  cases a with
  | copyFields f | merge f | value f => exact evaluate_corresponds hc ha
  | interpolate parts =>
    rw [compute, compute]
    exact (joinParts_corresponds hc ha).bind_eq fun _ => .pure (.computed rfl)

/-! ### Places still to change -/

theorem touches_eq (hC : C.IsFaithful) {α β : Type} {R : α → β → Prop} {x : Traced α}
    {y : Traced β} (h : C.Runs R x y) {pending pending' : List Path}
    (hpending : List.Forall₂ C.path pending pending') :
    y.touches pending' = x.touches pending := by
  have hone : ∀ s s', C.Sees s s' → pending'.any s'.touches = pending.any s.touches := by
    intro s s' hs
    induction hpending with
    | nil => rfl
    | @cons p p' _ _ hp _ ih =>
      have hdocument := hC.document_iff hs.path hp
      have hreaches : s'.reaches p' = s.reaches p := by
        rw [Bool.eq_iff_iff, Sighting.reaches_iff, Sighting.reaches_iff, hC.keys_eq hs.path,
          hC.keys_eq hp, hs.isWhole_eq, hdocument]
      rw [List.any_cons, List.any_cons, ih, Sighting.touches, Sighting.touches, hs.isNoticed_eq,
        hreaches]
  have hall := h.sightings
  rw [Traced.touches, Traced.touches]
  generalize x.sightings = seen at hall ⊢
  generalize y.sightings = seen' at hall ⊢
  induction hall with
  | nil => rfl
  | cons hs _ ih => rw [List.any_cons, List.any_cons, ih, hone _ _ hs]

namespace Workshop.Corresponds

variable {w w' : Workshop} {d d' : Draft}

theorem changes (h : w.Corresponds C w') (a : Action) (keys : List Key) :
    Option.Rel C.path (a.changes ⟨w.id, keys⟩) (a.changes ⟨w'.id, keys⟩) := by
  cases a with
  | copyFields | merge =>
    rw [Action.changes, Action.changes, Path.parent?, Path.parent?]
    split
    · exact .none
    · exact .some (h.builds.path _)
  | value | interpolate => exact .some (h.builds.path keys)

theorem pendingPaths (h : w.Corresponds C w') (hd : d.Corresponds C d')
    (directives : List Directive) :
    List.Forall₂ C.path (DocQuery.pendingPaths w d directives)
      (DocQuery.pendingPaths w' d' directives) := by
  rw [DocQuery.pendingPaths, DocQuery.pendingPaths, hd.walk_eq]
  induction directives with
  | nil => exact .nil
  | cons x directives ih =>
    rw [List.filterMap_cons, List.filterMap_cons]
    rcases d.walk.lookup x.cell with _ | keys
    · exact ih
    · have hchanges := h.changes x.action keys
      simp only [Option.bind_some]
      generalize x.action.changes ⟨w.id, keys⟩ = found at hchanges ⊢
      generalize x.action.changes ⟨w'.id, keys⟩ = found' at hchanges ⊢
      cases hchanges with
      | none => exact ih
      | some hp => exact .cons hp ih

end Workshop.Corresponds

/-! ### Results in drafts -/

section Results

variable {v v' : Value} {p : Position}

/-- What is offered for copying corresponds, or is refused for one reason. -/
theorem sources_corresponds (h : C.Values v v') (hp : C.position p p) :
    C.Outcomes (List.Forall₂ C.node) (v.sources p) (v'.sources p) := by
  have hchecked : ∀ {ns ns'}, List.Forall₂ C.node ns ns' →
      C.Outcomes (List.Forall₂ C.node)
        (if ns.all fun n => n.members?.isSome then .ok ns
          else .error (.failed .copyFromNonObjects p))
        (if ns'.all fun n => n.members?.isSome then .ok ns'
          else .error (.failed .copyFromNonObjects p)) := by
    intro ns ns' hns
    have hall : (ns'.all fun n => n.members?.isSome) = ns.all fun n => n.members?.isSome := by
      induction hns with
      | nil => rfl
      | cons hn _ ih =>
        rw [List.all_cons, List.all_cons, ih]
        cases C.form hn <;> rfl
    rw [hall]
    split
    · exact .ok hns
    · exact .error (.failed _ hp)
  cases h with
  | @computed v hv =>
    cases v with
    | undefined => exact hchecked .nil
    | null | boolean | number | text | moment => exact .error (.failed _ hp)
    | node | nodes => cases hv
  | node hn =>
    have hform := C.form hn
    cases hform with
    | object => exact hchecked (.cons hn .nil)
    | array _ _ hitems => exact hchecked hitems
    | scalar => exact .error (.failed _ hp)
  | nodes hns => exact hchecked hns

theorem offeredMembers_corresponds (h : C.Values v v') (hp : C.position p p) :
    C.Outcomes (List.Forall₂ fun m m' => m.1 = m'.1 ∧ C.node m.2 m'.2) (v.offeredMembers p)
      (v'.offeredMembers p) := by
  rw [Value.offeredMembers, Value.offeredMembers]
  refine (sources_corresponds h hp).map fun _ _ hns => ?_
  refine List.rel_flatMap hns fun n n' hn => ?_
  cases C.form hn with
  | object _ _ hmembers => exact hmembers
  | array => exact .nil
  | scalar => exact .nil

theorem freshMembers_corresponds {ms ms' : List (String × Node)}
    (h : List.Forall₂ (fun m m' => m.1 = m'.1 ∧ C.node m.2 m'.2) ms ms') (taken : List String) :
    List.Forall₂ (fun m m' => m.1 = m'.1 ∧ C.node m.2 m'.2) (freshMembers taken ms)
      (freshMembers taken ms') := by
  induction h generalizing taken with
  | nil => exact .nil
  | cons hm _ ih =>
    rw [freshMembers, freshMembers, ← hm.1]
    split
    · exact ih taken
    · exact .cons hm (ih _)

variable {id id' : String}

theorem placedIn_corresponds (hB : C.Builds id id') (hC : C.IsFaithful) (h : C.Values v v') :
    Option.Rel C.node (v.placedIn id) (v'.placedIn id') := by
  have hplaced : Option.Rel C.node (v.toNode? (.root id)) (v'.toNode? (.root id')) :=
    h.toNode? hB hC []
  cases h with
  | @computed v hv =>
    cases v with
    | undefined | null | boolean | number | text | moment => exact hplaced
    | node | nodes => cases hv
  | node hn => exact .some hn
  | nodes => exact hplaced

theorem mergedItems_corresponds (hB : C.Builds id id') (hC : C.IsFaithful) (h : C.Values v v') :
    List.Forall₂ C.node (v.mergedItems id) (v'.mergedItems id') := by
  have hplaced : Option.Rel C.node (v.toNode? (.root id)) (v'.toNode? (.root id')) :=
    h.toNode? hB hC []
  cases h with
  | @computed v hv =>
    cases v with
    | undefined => exact .nil
    | null | boolean | number | text | moment => exact Correspondence.toList hplaced
    | node | nodes => cases hv
  | node hn => exact Correspondence.spread hn
  | nodes hns => exact hns

end Results

/-- Whether two changes have left corresponding drafts, and faults that correspond or none. -/
structure Written.Corresponds (C : Correspondence) (x x' : Written) : Prop where
  draft : x.1.Corresponds C x'.1
  fault : Option.Rel C.Faults x.2 x'.2

namespace Draft.Corresponds

variable {w w' : Workshop} {d d' : Draft} {o o' : Except Fault Value}

theorem writeMembers (h : d.Corresponds C d') (hposition : ∀ p, C.position p p) (id : Nat)
    (ho : C.Outcomes C.Values o o') :
    Written.Corresponds C (d.writeMembers id o) (d'.writeMembers id o') := by
  rw [Draft.writeMembers, Draft.writeMembers, h.slot?_eq]
  rcases d.slot? id with _ | ⟨object, name⟩ | ⟨array, index⟩
  · exact ⟨h, .some (.broken _)⟩
  · simp only [h.positionOf_eq, h.memberNames_eq]
    have hoffered : C.Outcomes (List.Forall₂ fun m m' => m.1 = m'.1 ∧ C.node m.2 m'.2)
        (o.bind (Value.offeredMembers (d.positionOf id)))
        (o'.bind (Value.offeredMembers (d.positionOf id))) :=
      ho.bind fun _ _ hv => offeredMembers_corresponds hv (hposition _)
    generalize o.bind (Value.offeredMembers (d.positionOf id)) = found at hoffered ⊢
    generalize o'.bind (Value.offeredMembers (d.positionOf id)) = found' at hoffered ⊢
    cases hoffered with
    | error hfault => exact ⟨h.spliceMember object name [], .some hfault⟩
    | @ok ms ms' hms =>
      have hfresh := freshMembers_corresponds hms (copyFieldsName :: d.memberNames object)
      dsimp only
      generalize freshMembers _ ms = fresh at hfresh ⊢
      generalize freshMembers _ ms' = fresh' at hfresh ⊢
      have hnames : fresh'.map (·.1) = fresh.map (·.1) := by
        rw [← List.forall₂_eq_eq_eq, List.forall₂_map_left_iff, List.forall₂_map_right_iff]
        exact hfresh.flip.imp fun _ _ hm => hm.1.symm
      have hvalues : List.Forall₂ C.node (fresh.map (·.2)) (fresh'.map (·.2)) := by
        rw [List.forall₂_map_left_iff, List.forall₂_map_right_iff]
        exact hfresh.imp fun _ _ hm => hm.2
      obtain ⟨hadded, hids⟩ := h.addAll (d.positionOf id) hvalues
      simp only [hids, hnames]
      exact ⟨hadded.spliceMember object name _, .none⟩
  · exact ⟨h, .some (.broken _)⟩

theorem splice (h : d.Corresponds C d') (id : Nat) (replacement : List Nat) :
    C.Outcomes (Draft.Corresponds C) (d.splice id replacement) (d'.splice id replacement) := by
  rw [Draft.splice, Draft.splice, h.slot?_eq]
  rcases d.slot? id with _ | ⟨object, name⟩ | ⟨array, index⟩
  · exact .error (.broken _)
  · exact .error (.broken _)
  · refine .ok (h.changeContent array fun c c' hc => ?_)
    cases hc with
    | object members => exact .object members
    | array items => exact .array _
    | scalar s => exact .scalar s
    | imported hn => exact .imported hn

theorem writeItems (h : d.Corresponds C d') (hw : w.Corresponds C w') (hC : C.IsFaithful)
    (id : Nat) (ho : C.Outcomes C.Values o o') :
    Written.Corresponds C (d.writeItems w id o) (d'.writeItems w' id o') := by
  cases ho with
  | error hfault => exact ⟨h.without id, .some hfault⟩
  | @ok v v' hv =>
    obtain ⟨hadded, hids⟩ := h.addAll (d.positionOf id) (mergedItems_corresponds hw.builds hC hv)
    simp only [Draft.writeItems, h.positionOf_eq, hids]
    have hspliced := hadded.splice id (d.addAll (d.positionOf id) (v.mergedItems w.id)).2
    generalize Draft.splice _ _ _ = spliced at hspliced ⊢
    generalize Draft.splice _ _ _ = spliced' at hspliced ⊢
    cases hspliced with
    | ok hd => exact ⟨hd, .none⟩
    | error hfault => exact ⟨hadded, .some hfault⟩

theorem writeValue (h : d.Corresponds C d') (hw : w.Corresponds C w') (hC : C.IsFaithful)
    {p : Position} (hp : C.position p p) (id : Nat) (ho : C.Outcomes C.Values o o') :
    Written.Corresponds C (d.writeValue w id p o) (d'.writeValue w' id p o') := by
  cases ho with
  | error hfault => exact ⟨h, .some hfault⟩
  | @ok v v' hv =>
    have hplaced := placedIn_corresponds hw.builds hC hv
    simp only [Draft.writeValue, hw.options_eq, h.root_eq]
    generalize v.placedIn w.id = found at hplaced ⊢
    generalize v'.placedIn w'.id = found' at hplaced ⊢
    cases hplaced with
    | some hn => exact ⟨h.setContent id (.imported hn), .none⟩
    | none =>
      simp only
      split
      · split
        · exact ⟨h.setContent id (.scalar _), .none⟩
        · exact ⟨h.without id, .none⟩
      · exact ⟨h, .some (.failed _ hp)⟩

theorem writeText (h : d.Corresponds C d') (id : Nat) (ho : C.Outcomes C.Values o o') :
    Written.Corresponds C (d.writeText id o) (d'.writeText id o') := by
  cases ho with
  | error hfault => exact ⟨h, .some hfault⟩
  | ok hv =>
    simp only [Draft.writeText, hv.atom?_eq]
    exact ⟨h.setContent id (.scalar _), .none⟩

/-- Corresponding results leave corresponding drafts. -/
theorem write (h : d.Corresponds C d') (hw : w.Corresponds C w') (hC : C.IsFaithful)
    (hposition : ∀ p, C.position p p) (x : Directive) (ho : C.Outcomes C.Values o o') :
    Written.Corresponds C (d.write w x o) (d'.write w' x o') := by
  rw [Draft.write, Draft.write]
  rcases x with ⟨id, f | f | f | parts⟩
  · exact h.writeMembers hposition id ho
  · exact h.writeItems hw hC id ho
  · exact h.writeValue hw hC (hposition _) id ho
  · exact h.writeText id ho

end Draft.Corresponds

/-! ### The whole work -/

open Workshop (State)

/-- Whether two states of the work have corresponding drafts and faults. -/
structure Workshop.State.Corresponds (C : Correspondence) (s s' : State) : Prop where
  draft : s.draft.Corresponds C s'.draft
  faults : List.Forall₂ C.Faults s.faults s'.faults

namespace Workshop.Corresponds

variable {w w' : Workshop} {s s' : State}

theorem write (hw : w.Corresponds C w') (hC : C.IsFaithful) (hposition : ∀ p, C.position p p)
    (h : s.Corresponds C s') (x : Directive) {o o' : Except Fault Value}
    (ho : C.Outcomes C.Values o o') : (s.write w x o).Corresponds C (s'.write w' x o') := by
  obtain ⟨hdraft, hfault⟩ := h.draft.write hw hC hposition x ho
  exact ⟨hdraft, List.rel_append h.faults (Correspondence.toList hfault)⟩

/-- A round leaves corresponding states, in which the same directives wait. -/
theorem round (hw : w.Corresponds C w') (hC : C.IsFaithful) (hposition : ∀ p, C.position p p)
    (h : s.Corresponds C s') (deferred : List Directive) {directives : List Directive}
    (hkept : ∀ x ∈ directives, x.action.IsKept C) :
    (w.round s deferred directives).1.Corresponds C (w'.round s' deferred directives).1 ∧
      (w'.round s' deferred directives).2 = (w.round s deferred directives).2 := by
  induction directives generalizing s s' deferred with
  | nil => exact ⟨h, rfl⟩
  | cons x rest ih =>
    have hrest := fun y hy => hkept y (List.mem_cons_of_mem _ hy)
    have hruns := Action.compute_corresponds (hw.context hC h.draft)
      (hkept x List.mem_cons_self)
    -- the attempt waits in both or in neither, so the rest of the round has the same directives
    have htouches := touches_eq hC hruns (hw.pendingPaths h.draft (deferred ++ rest))
    rw [Workshop.round, Workshop.round, h.draft.isAttached_eq]
    simp only [htouches]
    split
    · split
      · exact ih h _ hrest
      · exact ih (hw.write hC hposition h x hruns.outcome) _ hrest
    · exact ih h _ hrest

theorem failAll (hw : w.Corresponds C w') (hC : C.IsFaithful) (hposition : ∀ p, C.position p p)
    (h : s.Corresponds C s') (directives : List Directive) :
    (w.failAll s directives).Corresponds C (w'.failAll s' directives) := by
  induction directives generalizing s s' with
  | nil => exact h
  | cons x rest ih =>
    rw [Workshop.failAll, Workshop.failAll, h.draft.isAttached_eq, circularity, circularity,
      h.draft.positionOf_eq]
    split
    · exact ih (hw.write hC hposition h x (.error (.failed _ (hposition _))))
    · exact ih h

/-- The whole work leaves corresponding states. -/
theorem solve (hw : w.Corresponds C w') (hC : C.IsFaithful) (hposition : ∀ p, C.position p p)
    (h : s.Corresponds C s') (fuel : Nat) {directives : List Directive}
    (hkept : ∀ x ∈ directives, x.action.IsKept C) :
    (w.solve fuel s directives).Corresponds C (w'.solve fuel s' directives) := by
  induction fuel generalizing s s' directives with
  | zero => exact h
  | succ fuel ih =>
    cases directives with
    | nil => exact h
    | cons x rest =>
      obtain ⟨hnext, hdeferred⟩ := hw.round hC hposition h [] hkept
      -- what waits for the next round was there before, so its formulas are kept as well
      have hwaiting : ∀ y ∈ (w.round s [] (x :: rest)).2, y ∈ x :: rest := fun y hy =>
        (w.trail_attempts s [] (x :: rest)).settled_perm.subset (List.mem_append_right _ hy)
      rw [Workshop.solve, Workshop.solve]
      · simp only [hdeferred]
        split
        · exact hw.failAll hC hposition hnext _
        · exact ih hnext fun y hy => hkept y (hwaiting y hy)
      · simp
      · simp

end Workshop.Corresponds

/-! ### One draft and itself -/

section Trails

variable {w : Workshop} {s t : State} {ds es : List Directive} {events : List Event}

/-- An event leaves a draft that corresponds to itself. -/
theorem Event.corresponds_after (hC : C.IsFaithful) (hposition : ∀ p, C.position p p)
    (hw : w.Corresponds C w) (e : Event) (hkept : e.directive.action.IsKept C)
    (h : e.before.draft.Corresponds C e.before.draft) :
    (e.after w).draft.Corresponds C (e.after w).draft := by
  have hruns := Action.compute_corresponds (hw.context hC h) hkept
  rcases e with ⟨x, others, s, fate⟩
  cases fate with
  | written => exact (h.write hw hC hposition x hruns.outcome).draft
  | deferred => exact h
  | skipped => exact h
  | circular => exact (h.write hw hC hposition x (.error (.failed _ (hposition _)))).draft

/-- On a trail, every draft corresponds to itself if the first one does. -/
theorem Trail.corresponds (hC : C.IsFaithful) (hposition : ∀ p, C.position p p)
    (hw : w.Corresponds C w) (h : Trail w s ds events t es)
    (hkept : ∀ e ∈ events, e.directive.action.IsKept C) (hs : s.draft.Corresponds C s.draft) :
    ∀ e ∈ events, (e.after w).draft.Corresponds C (e.after w).draft := by
  induction h with
  | done _ => simp
  | @step e events t ds es _ _ _ ih =>
    rw [List.forall_mem_cons] at hkept ⊢
    have hafter := e.corresponds_after hC hposition hw hkept.1 hs
    exact ⟨hafter, ih hkept.2 hafter⟩

end Trails

namespace Engine

variable {e : Engine} {source : SourceText} {parents : List Document} {tree : Source}

/-- The drafts of all states of the work correspond to themselves. -/
theorem states_correspond (hC : C.IsFaithful) (hposition : ∀ p, C.position p p)
    (hv : e.dialect.vocabulary.Keeps C)
    (hw : (e.workshop source parents).Corresponds C (e.workshop source parents)) {s : State}
    (hs : s ∈ e.states source parents tree) : s.draft.Corresponds C s.draft := by
  have hstart := Draft.ofSource_corresponds C tree
  rw [states] at hs
  rcases List.mem_cons.1 hs with rfl | hs
  · exact hstart
  · split at hs
    · cases hs
    · rename_i directives hdetect
      obtain ⟨a, ha, rfl⟩ := List.mem_map.1 hs
      have htrail := e.trail_history source parents tree directives
      have hkept := detect_kept hv hposition hdetect
      exact htrail.corresponds hC hposition hw
        (fun b hb => hkept _ (htrail.directive_mem b hb)) hstart a ha

/-- What a query answers against corresponding documents corresponds. -/
theorem query_corresponds (hC : C.IsFaithful) (hposition : ∀ p, C.position p p)
    (hv : e.dialect.vocabulary.Keeps C) (hB : C.Builds queryId queryId) (expression : String)
    {documents documents' : List Document}
    (h : List.Forall₂ (Document.Corresponds C) documents documents') :
    Option.Rel C.node (e.query expression documents).value
      (e.query expression documents').value := by
  -- a query stands in an empty document of its own
  have hempty : Page.Corresponds C ⟨queryId, .object (.at (.root queryId)) []⟩
      ⟨queryId, .object (.at (.root queryId)) []⟩ :=
    ⟨hB.path [], hB.object [] .nil List.nodup_nil⟩
  have hdocument : (queryDocument documents).Corresponds C (queryDocument documents') :=
    .ofParents hC hempty h
  rcases e.query_eq expression with ⟨fault, -, heq⟩ | ⟨f, hf, heq⟩
  · rw [heq, heq]
    exact .none
  · have hruns := (evaluate_corresponds (hdocument.context (hB.scalar []) e.options e.now _)
      (compileExpression_kept hv hposition hf)).outcome
    rw [heq, heq]
    generalize (evaluate ⟨queryDocument documents, e.options, e.now, []⟩ f).outcome = x at hruns ⊢
    generalize (evaluate ⟨queryDocument documents', e.options, e.now, []⟩ f).outcome = x'
      at hruns ⊢
    cases hruns with
    | ok hvalue => exact hvalue.toNode? hB hC []
    | error => exact .none

end Engine

end DocQuery
