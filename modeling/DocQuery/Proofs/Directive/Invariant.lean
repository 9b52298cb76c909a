/-
What the work on a document preserves.

* `Directive.Fits` — a directive is about a string of the text that is part of the document;
* `State.IsSound` — the draft is a tree, and the directives that are not settled fit;
* `Event.isSound_after`, `Trail.isSound` — one event and a whole trail preserve this;
* `Trail.kept` — a directive that changes nothing stays what it is;
* `isSound_start` — the work begins soundly;
* `Engine.compileWithParents_eq` — a finished document is what the work on its text leads to;
* `Engine.states` — all states of the work, each of which holds a tree;
* `Engine.forall_mem_compile` — induction along a chain of documents;
* `Engine.query_eq` — a query is one evaluation.

Design notes: a directive only ever changes its own cell and the place of this cell, and it is about
a cell that holds a scalar. So it can never take another one out of the document.
-/
import DocQuery.Compilation
import DocQuery.Proofs.Directive.History
import DocQuery.Proofs.Draft.Write

namespace DocQuery

open Workshop (State)

/-- Whether a directive is about a string of the text in a cell of the document. -/
structure Directive.Fits (n : Nat) (d : Draft) (x : Directive) : Prop where
  lt : x.cell < n
  text : ∃ t, d.content? x.cell = some (.scalar ⟨t, true⟩)
  reached : ∃ keys, d.Leads d.root keys x.cell
  off_root : x.action.grows → x.cell ≠ d.root

/-- Whether a draft is a tree in which the directives `ds` fit, each with a cell of its own. -/
structure Workshop.State.IsSound (n : Nat) (s : State) (ds : List Directive) : Prop where
  tree : s.draft.IsTree n
  nodup : (ds.map (·.cell)).Nodup
  fits : ∀ x ∈ ds, x.Fits n s.draft

namespace Directive.Fits

variable {n : Nat} {d d' : Draft} {x : Directive} {xs : List Directive}

theorem entries_eq_nil (h : x.Fits n d) : d.entries x.cell = [] := by
  obtain ⟨t, ht⟩ := h.text
  exact Draft.entries_of_content? ht

theorem isAttached (h : x.Fits n d) : d.isAttached x.cell = true := by
  obtain ⟨keys, hkeys⟩ := h.reached
  exact Draft.isAttached_of_leads hkeys

/-- Other directives leave a directive as it is. -/
theorem of_editedBy (h : x.Fits n d) (hedit : d.EditedBy xs d')
    (hleaf : ∀ y ∈ xs, d.entries y.cell = []) (hne : ∀ y ∈ xs, y.cell ≠ x.cell) :
    x.Fits n d' := by
  obtain ⟨t, ht⟩ := h.text
  obtain ⟨keys, hkeys⟩ := h.reached
  obtain ⟨keys', _, hkeys'⟩ := hedit.exists_leads hleaf hkeys hne
  exact ⟨h.lt, ⟨t, hedit.content_scalar ht hne⟩, ⟨keys', hedit.root_eq ▸ hkeys'⟩,
    hedit.root_eq ▸ h.off_root⟩

end Directive.Fits

variable {w : Workshop} {n : Nat} {s t : State} {ds es : List Directive} {events : List Event}

theorem Workshop.State.IsSound.of_perm (h : s.IsSound n ds) (hp : ds.Perm es) : s.IsSound n es where
  tree := h.tree
  nodup := (hp.map _).nodup_iff.1 h.nodup
  fits x hx := h.fits x (hp.mem_iff.2 hx)

/-- An event changes its own directive only. -/
theorem Event.edits (e : Event) (h : e.before.IsSound n (e.directive :: e.others)) :
    e.before.draft.EditedBy [e.directive] (e.after w).draft ∧ (e.after w).draft.IsTree n := by
  have hfits := h.fits e.directive List.mem_cons_self
  have hwrite := Draft.write_edits h.tree w hfits.lt hfits.entries_eq_nil
  rcases e with ⟨x, others, s, fate⟩
  cases fate with
  | written => exact hwrite _
  | deferred => exact ⟨.refl _ _, h.tree⟩
  | skipped => exact ⟨.refl _ _, h.tree⟩
  | circular => exact hwrite _

theorem Event.directive_bare (e : Event) (h : e.before.IsSound n (e.directive :: e.others)) :
    ∀ y ∈ [e.directive], e.before.draft.entries y.cell = [] := by
  intro y hy
  rw [List.mem_singleton.1 hy]
  exact (h.fits e.directive List.mem_cons_self).entries_eq_nil

theorem Event.others_ne (e : Event) (h : e.before.IsSound n (e.directive :: e.others)) :
    ∀ x ∈ e.others, ∀ y ∈ [e.directive], y.cell ≠ x.cell := by
  intro x hx y hy heq
  have hnodup := h.nodup
  rw [List.map_cons, List.nodup_cons] at hnodup
  rw [List.mem_singleton.1 hy] at heq
  exact hnodup.1 (List.mem_map.2 ⟨x, hx, heq.symm⟩)

/-- An event leaves those that are not settled where they are. -/
theorem Event.isSound_after (e : Event) (h : e.before.IsSound n (e.directive :: e.others)) :
    (e.after w).IsSound n e.unsettled := by
  obtain ⟨hedit, htree⟩ := e.edits (w := w) h
  rcases hs : e.settles
  · rw [Event.after_of_not_settles w hs, Event.unsettled, hs]
    exact h
  · rw [Event.unsettled, if_pos hs]
    refine ⟨htree, ?_, fun x hx => ?_⟩
    · have hnodup := h.nodup
      rw [List.map_cons, List.nodup_cons] at hnodup
      exact hnodup.2
    · exact (h.fits x (List.mem_cons_of_mem _ hx)).of_editedBy hedit
        (e.directive_bare h) (e.others_ne h x hx)

namespace Trail

/-- A trail preserves soundness. -/
theorem isSound (h : Trail w s ds events t es) (hs : s.IsSound n ds) :
    t.IsSound n es ∧ ∀ e ∈ events, e.before.IsSound n (e.directive :: e.others) := by
  induction h with
  | done hp => exact ⟨hs.of_perm hp, by simp⟩
  | @step e events t ds es hp _ _ ih =>
    have hbefore := hs.of_perm hp.symm
    obtain ⟨hlast, hall⟩ := ih (e.isSound_after hbefore)
    refine ⟨hlast, fun e' he' => ?_⟩
    rcases List.mem_cons.1 he' with rfl | he'
    · exact hbefore
    · exact hall e' he'

/-- A trail changes nothing but what the directives that it settles are about. -/
theorem editedBy (h : Trail w s ds events t es) (hs : s.IsSound n ds) :
    s.draft.EditedBy (settled events) t.draft := by
  have hall := h.settled_perm
  induction h with
  | done _ => exact .refl _ _
  | @step e events t ds es hp _ hrest ih =>
    have hbefore := hs.of_perm hp.symm
    obtain ⟨hedit, _⟩ := e.edits (w := w) hbefore
    have hlater := ih (e.isSound_after hbefore) hrest.settled_perm
    have hsplit : settled (e :: events) = settled [e] ++ settled events :=
      settled_append [e] events
    rcases hs' : e.settles
    · -- what waits has changed nothing
      have hafter := Event.after_of_not_settles w hs'
      rw [hafter] at hlater
      refine hlater.mono ?_
      rw [hsplit]
      exact List.subset_append_right _ _
    · have hone : settled [e] = [e.directive] := by simp [settled, hs']
      -- what is settled later does not touch the cells that have been added now
      rw [hsplit, hone] at hall ⊢
      refine hedit.trans hlater fun y hy => ?_
      have hin := hall.subset (List.mem_append_left _ (List.mem_append_right _ hy))
      have hlt := (hs.fits y hin).lt
      have hsize := hbefore.tree.size_le
      omega

/-- A directive that is not settled at the end of a trail has not been settled on it. -/
theorem settled_ne (h : Trail w s ds events t es) (hs : s.IsSound n ds) {x : Directive}
    (hx : x ∈ es) : ∀ y ∈ settled events, y.cell ≠ x.cell := by
  intro y hy
  have hnodup := (h.settled_perm.map (·.cell)).nodup_iff.2 hs.nodup
  rw [List.map_append, List.nodup_append] at hnodup
  exact hnodup.2.2 _ (List.mem_map_of_mem hy) _ (List.mem_map_of_mem hx)

/-- The directives that a trail settles name no cells. -/
theorem settled_bare (h : Trail w s ds events t es) (hs : s.IsSound n ds) :
    ∀ y ∈ settled events, s.draft.entries y.cell = [] := by
  intro y hy
  have hin := h.settled_perm.subset (List.mem_append_left es hy)
  exact (hs.fits y hin).entries_eq_nil

/-- A trail can be cut in two at any of its events. -/
theorem exists_between (h : Trail w s ds events t es) {e : Event} (he : e ∈ events) :
    ∃ earlier later, events = earlier ++ e :: later ∧
      Trail w s ds earlier e.before (e.directive :: e.others) ∧
        Trail w (e.after w) e.unsettled later t es := by
  induction h with
  | done _ => simp at he
  | @step e' events t ds es hp hfounded hrest ih =>
    rcases List.mem_cons.1 he with rfl | he
    · exact ⟨[], events, rfl, .done hp.symm, hrest⟩
    · obtain ⟨earlier, later, rfl, hearlier, hlater⟩ := ih he
      exact ⟨e' :: earlier, later, rfl, .step hp hfounded hearlier, hlater⟩

/-- No directive is found outside the document. -/
theorem fate_ne_skipped (h : Trail w s ds events t es) (hs : s.IsSound n ds) :
    ∀ e ∈ events, e.fate ≠ .skipped := by
  intro e he hfate
  have hbefore := (h.isSound hs).2 e he
  have hfounded := h.isFounded e he
  rw [Event.IsFounded, hfate] at hfounded
  exact hfounded (hbefore.fits e.directive List.mem_cons_self).isAttached

/-- A directive whose events change nothing stays what it is, and where it is. -/
theorem kept (h : Trail w s ds events t es) (hs : s.IsSound n ds) {x : Directive}
    {content : String} {keys : List Key}
    (hcontent : s.draft.content? x.cell = some (.scalar ⟨content, true⟩))
    (hleads : s.draft.Leads s.draft.root keys x.cell)
    (hsame : ∀ e ∈ events, e.directive.cell = x.cell → (e.after w).draft = e.before.draft) :
    t.draft.content? x.cell = some (.scalar ⟨content, true⟩) ∧
      ∃ keys', AlikeKeys keys keys' ∧ t.draft.Leads t.draft.root keys' x.cell := by
  induction h generalizing keys with
  | done _ => exact ⟨hcontent, keys, .refl keys, hleads⟩
  | @step e events t ds es hp _ _ ih =>
    have hbefore := hs.of_perm hp.symm
    have hlater : ∀ e' ∈ events, e'.directive.cell = x.cell →
        (e'.after w).draft = e'.before.draft :=
      fun e' he' => hsame e' (List.mem_cons_of_mem _ he')
    -- an event of the directive itself changes nothing, and one of another keeps it in its place
    by_cases heq : e.directive.cell = x.cell
    · have hdraft := hsame e List.mem_cons_self heq
      rw [← hdraft] at hcontent hleads
      exact ih (e.isSound_after hbefore) hcontent hleads hlater
    · obtain ⟨hedit, _⟩ := e.edits (w := w) hbefore
      have hne : ∀ y ∈ [e.directive], y.cell ≠ x.cell := by
        intro y hy
        rw [List.mem_singleton.1 hy]
        exact heq
      obtain ⟨keys', halike, hleads'⟩ := hedit.exists_leads (e.directive_bare hbefore) hleads hne
      rw [← hedit.root_eq] at hleads'
      obtain ⟨hlast, keys'', halike', hlast'⟩ := ih (e.isSound_after hbefore)
        (hedit.content_scalar hcontent hne) hleads' hlater
      exact ⟨hlast, keys'', halike.trans halike', hlast'⟩

end Trail

/-- A directive that adds entries sits in a container. -/
theorem Action.SitsIn.exists_slot {a : Action} {slot : Option Slot} (h : a.SitsIn slot)
    (hgrows : a.grows) : ∃ s, slot = some s := by
  cases a with
  | copyFields f =>
    obtain ⟨object, hslot⟩ := h
    exact ⟨_, hslot⟩
  | merge f =>
    obtain ⟨array, index, hslot⟩ := h
    exact ⟨_, hslot⟩
  | value f => simp [grows] at hgrows
  | interpolate parts => simp [grows] at hgrows

/-- The work on a text begins soundly. -/
theorem isSound_start {d : Dialect} {text : String} {source : Source} {directives : List Directive}
    (hread : readJson text = .ok source) (hdetect : detect d (.ofSource source) = .ok directives) :
    State.IsSound (Draft.ofSource source).cells.size ⟨.ofSource source, []⟩ directives := by
  have htree := Draft.isTree_ofSource (readJson_namesDiffer hread)
  refine ⟨htree, detect_cells_nodup htree hdetect, fun x hx => ?_⟩
  obtain ⟨horder, hdirective⟩ := mem_of_detect hdetect hx
  obtain ⟨_, content, hcontent⟩ := directiveOf_eq_ok hdirective
  refine ⟨Draft.content?_lt_size hcontent, ⟨content, hcontent⟩, htree.mem_order_iff.1 horder, ?_⟩
  intro hgrows
  obtain ⟨slot, hslot⟩ := (directiveOf_spec hdirective).2.exists_slot hgrows
  exact htree.ne_root (Draft.mem_entries_of_slot? hslot)

namespace Engine

/-- An engine with the standard dialect and the standard options. -/
def standard (now : Time.Moment) : Engine := ⟨.standard, .standard, now⟩

/-- What a document is worked on with. -/
def workshop (e : Engine) (source : SourceText) (parents : List Document) : Workshop :=
  ⟨source.id, parents, e.options, e.now⟩

/-- The end of the work on a text that holds the given directives. -/
def finalState (e : Engine) (source : SourceText) (parents : List Document) (tree : Source)
    (directives : List Directive) : State :=
  (e.workshop source parents).solve directives.length ⟨.ofSource tree, []⟩ directives

/-- The events of the work on a text that holds the given directives. -/
def history (e : Engine) (source : SourceText) (parents : List Document) (tree : Source)
    (directives : List Directive) : List Event :=
  (e.workshop source parents).history ⟨.ofSource tree, []⟩ directives

/-- A text whose directives are all well formed is finished, and its reports are those of its
directives. -/
theorem compileWithParents_eq (e : Engine) {source : SourceText} (parents : List Document)
    {tree : Source} {directives : List Directive} (hread : readJson source.text = .ok tree)
    (hdetect : detect e.dialect (.ofSource tree) = .ok directives) :
    e.compileWithParents source parents =
      ⟨[.ofParents ⟨source.id, (e.finalState source parents tree directives).draft.freeze source.id⟩
          parents],
        (e.finalState source parents tree directives).faults.map (.ofFault source.id)⟩ := by
  have hrun : (e.workshop source parents).run e.dialect (.ofSource tree) =
      .ok (e.finalState source parents tree directives) := by
    rw [Workshop.run, hdetect]
    rfl
  rw [workshop] at hrun
  rw [compileWithParents, compileDocument, hread]
  simp only [hrun]
  rfl

/-- A malformed text is not finished. -/
theorem compileWithParents_of_malformed (e : Engine) {source : SourceText}
    (parents : List Document) {fault : Fault} (hread : readJson source.text = .error fault) :
    e.compileWithParents source parents = ⟨[], [.ofFault source.id fault]⟩ := by
  rw [compileWithParents, compileDocument, hread]
  rfl

/-- A text with malformed directives is not finished, and its reports are those of them. -/
theorem compileWithParents_of_faults (e : Engine) {source : SourceText} (parents : List Document)
    {tree : Source} {faults : List Fault} (hread : readJson source.text = .ok tree)
    (hdetect : detect e.dialect (.ofSource tree) = .error faults) :
    e.compileWithParents source parents = ⟨[], faults.map (.ofFault source.id)⟩ := by
  rw [compileWithParents, compileDocument, hread]
  simp only [Workshop.run, hdetect]
  rfl

/-- The work leads from the text to the finished document. -/
theorem trail_history (e : Engine) (source : SourceText) (parents : List Document) (tree : Source)
    (directives : List Directive) :
    Trail (e.workshop source parents) ⟨.ofSource tree, []⟩ directives
      (e.history source parents tree directives) (e.finalState source parents tree directives) [] :=
  (e.workshop source parents).trail_rounds (Nat.le_refl _) _

/-- The directive of an event is what has been found in a cell of the text. -/
theorem directiveOf_of_mem_history {e : Engine} {source : SourceText} {parents : List Document}
    {tree : Source} {directives : List Directive}
    (hdetect : detect e.dialect (.ofSource tree) = .ok directives) {a : Event}
    (ha : a ∈ e.history source parents tree directives) :
    a.directive.cell ∈ (Draft.ofSource tree).order ∧
      directiveOf e.dialect (.ofSource tree) a.directive.cell = .ok (some a.directive) :=
  mem_of_detect hdetect ((e.trail_history source parents tree directives).directive_mem a ha)

/-- The states of the work on a text: the first one, and that after each event. -/
def states (e : Engine) (source : SourceText) (parents : List Document) (tree : Source) :
    List State :=
  ⟨.ofSource tree, []⟩ ::
    match detect e.dialect (.ofSource tree) with
    | .error _ => []
    | .ok directives =>
      (e.history source parents tree directives).map fun a => a.after (e.workshop source parents)

section States

variable {e : Engine} {source : SourceText} {parents : List Document} {tree : Source}
  {directives : List Directive}

theorem stateAfter_mem (w : Workshop) (s : State) (events : List Event) :
    stateAfter w s events ∈ s :: events.map fun a => a.after w := by
  induction events generalizing s with
  | nil => exact List.mem_cons_self
  | cons a events ih => exact List.mem_cons_of_mem _ (ih (a.after w))

theorem finalState_mem_states (hdetect : detect e.dialect (.ofSource tree) = .ok directives) :
    e.finalState source parents tree directives ∈ e.states source parents tree := by
  rw [states, hdetect, (e.trail_history source parents tree directives).state_eq]
  exact stateAfter_mem _ _ _

/-- The states before and after an event are states of the work. -/
theorem before_mem_states (hdetect : detect e.dialect (.ofSource tree) = .ok directives)
    {a : Event} (ha : a ∈ e.history source parents tree directives) :
    a.before ∈ e.states source parents tree ∧
      a.after (e.workshop source parents) ∈ e.states source parents tree := by
  have htrail := e.trail_history source parents tree directives
  obtain ⟨earlier, later, hsplit, hearlier, -⟩ := htrail.exists_between ha
  have hstates : e.states source parents tree = ⟨.ofSource tree, []⟩ ::
      (e.history source parents tree directives).map
        fun b => b.after (e.workshop source parents) := by
    rw [states, hdetect]
  rw [hstates]
  constructor
  · have hmem := stateAfter_mem (e.workshop source parents) ⟨.ofSource tree, []⟩ earlier
    rw [← hearlier.state_eq] at hmem
    refine List.mem_cons.2 ((List.mem_cons.1 hmem).imp_right fun hin => ?_)
    rw [hsplit, List.map_append]
    exact List.mem_append_left _ hin
  · exact List.mem_cons_of_mem _ (List.mem_map_of_mem ha)

/-- Every state of the work on a text holds a tree. -/
theorem states_isTree (hread : readJson source.text = .ok tree) {s : State}
    (hs : s ∈ e.states source parents tree) :
    s.draft.IsTree (Draft.ofSource tree).cells.size := by
  rw [states] at hs
  rcases List.mem_cons.1 hs with rfl | hs
  · exact Draft.isTree_ofSource (readJson_namesDiffer hread)
  · split at hs
    · cases hs
    · rename_i directives hdetect
      obtain ⟨a, ha, rfl⟩ := List.mem_map.1 hs
      have htrail := e.trail_history source parents tree directives
      have hbefore := (htrail.isSound (isSound_start hread hdetect)).2 a ha
      exact (a.isSound_after hbefore).tree

/-- A finished document is the end of the work on its text. -/
theorem exists_work_of_mem {d : Document}
    (h : d ∈ (e.compileWithParents source parents).documents) :
    ∃ tree directives, readJson source.text = .ok tree ∧
      detect e.dialect (.ofSource tree) = .ok directives ∧
        d = .ofParents ⟨source.id,
          (e.finalState source parents tree directives).draft.freeze source.id⟩ parents := by
  rcases hread : readJson source.text with fault | tree
  · rw [compileWithParents, compileDocument, hread] at h
    cases h
  · rcases hdetect : detect e.dialect (.ofSource tree) with faults | directives
    · rw [compileWithParents, compileDocument, hread] at h
      simp only [Workshop.run, hdetect] at h
      cases h
    · rw [e.compileWithParents_eq parents hread hdetect] at h
      exact ⟨tree, directives, rfl, hdetect, List.mem_singleton.1 h⟩

end States

/-- What holds of every document below parents of which it holds, holds of the documents of a
chain. -/
theorem forall_mem_compile {e : Engine} {P : List SourceText → Document → Prop}
    (hnew : ∀ source parents (parent : Option Document), (∀ p ∈ parent, P parents p) →
      ∀ d ∈ (e.compileWithParents source parent.toList).documents, P (source :: parents) d)
    (hold : ∀ source parents d, P parents d → P (source :: parents) d) (chain : List SourceText) :
    ∀ d ∈ (e.compile chain).documents, P chain d := by
  have hall : (∀ d ∈ (e.compileChain chain).1.documents, P chain d) ∧
      ∀ p, (e.compileChain chain).2 = .sound (some p) → P chain p := by
    induction chain with
    | nil => exact ⟨nofun, nofun⟩
    | cons source parents ih =>
      obtain ⟨hbelow, hparent⟩ := ih
      rw [compileChain]
      generalize e.compileChain parents = found at hbelow hparent ⊢
      obtain ⟨below, foundation⟩ := found
      have hkept : ∀ d ∈ below.documents, P (source :: parents) d :=
        fun d hd => hold source parents d (hbelow d hd)
      cases foundation with
      | broken id => exact ⟨hkept, nofun⟩
      | sound parent =>
        have hmade : ∀ d ∈ (e.compileDocument source parent.toList).1.toList,
            P (source :: parents) d :=
          hnew source parents parent fun p hp => hparent p (congrArg Foundation.sound hp)
        rw [compileNext]
        generalize e.compileDocument source parent.toList = made at hmade ⊢
        obtain ⟨document, reports⟩ := made
        refine ⟨fun d hd => ?_, fun p hp => ?_⟩
        · exact (List.mem_append.1 hd).elim (hkept d) (hmade d)
        · cases document with
          | none => cases hp
          | some d =>
            obtain rfl := Option.some.inj (Foundation.sound.inj hp)
            exact hmade d List.mem_cons_self
  exact hall.1

/-- A query has the value of its expression, or its only report is the fault of it. Whether it has a
formula does not depend on the documents. -/
theorem query_eq (e : Engine) (expression : String) :
    (∃ fault, compileExpression e.dialect expression .start = .error fault ∧
      ∀ documents, e.query expression documents = ⟨none, [.ofFault queryId fault]⟩) ∨
    ∃ f, compileExpression e.dialect expression .start = .ok f ∧
      ∀ documents, e.query expression documents =
        match (evaluate ⟨queryDocument documents, e.options, e.now, []⟩ f).outcome with
        | .ok v => ⟨v.toNode? (.root queryId), []⟩
        | .error fault => ⟨none, [.ofFault queryId fault]⟩ := by
  rcases hf : compileExpression e.dialect expression .start with fault | f
  · refine .inl ⟨fault, rfl, fun documents => ?_⟩
    rw [query, hf]
    rfl
  · refine .inr ⟨f, rfl, fun documents => ?_⟩
    rw [query, hf]
    rfl

end Engine

end DocQuery
