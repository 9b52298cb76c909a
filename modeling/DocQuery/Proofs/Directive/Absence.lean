/-
What is noticed of a name that is not there.

* `touches_name_iff` — a name at the beginning of a lookup counts only where it is found;
* `Chain.touches_member_iff` — a name after a chain also counts for the values that it is looked up
  in, but not for the items that are searched for it in arrays;
* `Chain.heeded` — the values whose changes are noticed when a name is looked up in them;
* `Engine.absence_is_noticed` — what this means for lookups and for the directives of a document;
* `Engine.absence_in_root_is_not_noticed` — a string that is taken away because a name is missing,
  which is there in the end.

Design notes: a name that is missing has no place, so that it is missing can only be noticed at the
values that it is looked up in. A chain notices those that it steps through, and a chain that begins
with a computed value lies in what was read as a whole before. The root of a document and the items
of arrays are searched without being noticed.
-/
import DocQuery.Proofs.Directive.Noticing

namespace DocQuery

/-! ### Names -/

section Names

variable {c : Context} {pending : List Path}

/-- A name at the beginning of a lookup counts only where it is found. -/
theorem touches_name_iff (name : String) (scope : Scope) (p : Position) :
    (evaluate c (.lookup (.property name scope) [] p)).touches pending ↔
      ∃ n, Page.firstMember? name (scope.pages c.document) = some n ∧ n.path.Meets pending := by
  rw [evaluate, Traced.touches_see_bind_iff, Traced.touches_unnoticed,
    Traced.touches_ofExcept_bind_iff, Start.resolve]
  simp only [List.isEmpty_nil, if_true, Except.ok.injEq, exists_eq_left',
    Traced.touches_see_bind_iff, Traced.touches_pure, Bool.false_eq_true, or_false, false_or]
  rcases Page.firstMember? name (scope.pages c.document) with _ | n
  · simp [Value.ofNode?, Value.sightings, Traced.touches, Traced.see]
  · simp [Value.ofNode?, Value.sightings, Traced.touches_read_iff]

end Names

namespace Chain

open Correspondence (covered)

variable {c : Context} {chain : Chain} {pending : List Path} {view : View} {n : Node}

/-- A name after a chain that is noticed counts for the values that it is looked up in, if they lie
in a place that is still to be changed, and for those that are found. -/
theorem touches_member_iff (h : chain.isTracked) (name : String) :
    (evaluate c (chain.extend [.member name]).formula).touches pending ↔
      (chain.reach c).touches pending ∨ ∃ view, (chain.reach c).outcome = .ok view ∧
        ((∃ n ∈ view.nodes, n.path.LiesIn pending) ∨
          ∃ n ∈ (view.member name).nodes, n.path.Meets pending) := by
  rw [evaluate_extend_cons, Traced.touches_bind_iff, touches_passed_iff, outcome_passed, or_assoc]
  refine or_congr_right ?_
  rcases (chain.reach c).outcome with fault | view
  · simp
  · simp [h, evaluateStep, evaluateSteps, Traced.touches_see_bind_iff, Traced.touches_read_iff]

/-- The values whose changes are noticed when a name is looked up in what a chain has reached: these
values and, if the chain begins with a computed value, those that are searched besides. Scalars that
were computed on the way are in no document. -/
def heeded (chain : Chain) (view : View) : List Node :=
  if chain.isTracked then view.nodes
  else (view.nodes ++ view.searched).filter fun n => n.scalar?.isNone

/-- What a chain heeds that begins with a computed value was noticed as a whole. -/
theorem heeded_covered {name : String} {more : List Step} (hc : c.IsAddressed)
    (hchain : chain.isTracked = false)
    (h : (chain.extend (.member name :: more)).formula.IsKept)
    (hreach : (chain.reach c).outcome = .ok view) (hn : n ∈ chain.heeded view) :
    n.path.IsCovered (chain.reach c).sightings := by
  have hview := reach_covered hc hchain (List.cons_ne_nil _ more) h
    (List.Subset.refl (chain.reach c).sightings) view hreach
  rw [heeded, hchain, if_neg (by simp), List.mem_filter, List.mem_append] at hn
  obtain ⟨hn, hscalar⟩ := hn
  have hcovered : (covered (chain.reach c).sightings).node n n :=
    hn.elim (List.forall₂_same.1 hview.nodes n) (List.forall₂_same.1 hview.searched n)
  exact hcovered.2.2 (Option.isNone_iff_eq_none.1 hscalar)

/-- That a value is still to be changed is noticed when a name is looked up in it, whether it has
the name or not. -/
theorem touches_of_heeded {name : String} {more : List Step}
    (h : chain.isTracked ∨ c.IsAddressed ∧ (chain.extend (.member name :: more)).formula.IsKept)
    (hreach : (chain.reach c).outcome = .ok view) (hn : n ∈ chain.heeded view)
    (hlies : n.path.LiesIn pending) :
    (evaluate c (chain.extend (.member name :: more)).formula).touches pending := by
  refine touches_of_passed (touches_passed_iff.2 ?_)
  cases hchain : chain.isTracked with
  | true =>
    rw [heeded, if_pos hchain] at hn
    exact .inr ⟨rfl, view, hreach, n, hn, hlies⟩
  | false =>
    rw [hchain] at h
    obtain ⟨hc, hkept⟩ := h.resolve_left (by simp)
    exact .inl ((heeded_covered hc hchain hkept hreach hn).touches hlies)

end Chain

/-! ### Directives -/

section Actions

variable {c : Context} {f : Formula}

theorem joinParts_includes {parts : List Part} {texts : List String} (hf : Part.formula f ∈ parts)
    (htexts : (joinParts c parts).outcome = .ok texts) :
    (joinParts c parts).Includes (evaluate c f) := by
  induction parts generalizing texts with
  | nil => cases hf
  | cons part parts ih =>
    cases part with
    | text content =>
      obtain ⟨rest, hrest, -⟩ := Traced.outcome_bind_eq_ok_iff.1 htexts
      have hin : Part.formula f ∈ parts := (List.mem_cons.1 hf).resolve_left Part.noConfusion
      exact (ih hin hrest).bind _
    | formula g =>
      obtain ⟨v, hv, hjoined⟩ := Traced.outcome_bind_eq_ok_iff.1 htexts
      obtain ⟨s, hs, hlater⟩ := Traced.outcome_bind_eq_ok_iff.1 hjoined
      obtain ⟨rest, hrest, -⟩ := Traced.outcome_bind_eq_ok_iff.1 hlater
      rcases List.mem_cons.1 hf with heq | hin
      · obtain rfl := Part.formula.inj heq
        exact (Traced.Includes.refl _).bind _
      · exact .of_bind hv (.of_bind hs ((ih hin hrest).bind _))

/-- The evaluation of an action that gives a value includes those of all its formulas. -/
theorem Action.includes_of_has {a : Action} {v : Value} (hf : a.Has f)
    (hv : (a.compute c).outcome = .ok v) : (a.compute c).Includes (evaluate c f) := by
  cases hf with
  | copyFields | merge | value => exact .refl _
  | part hin =>
    obtain ⟨texts, htexts, -⟩ := Traced.outcome_bind_eq_ok_iff.1 hv
    exact (joinParts_includes hin htexts).bind _

end Actions

namespace Engine

open Correspondence (addressed_isFaithful)

variable {e : Engine} {source : SourceText} {parents : List Document} {tree : Source}
  {directives : List Directive} {a : Event}

/-- Every directive is tried in a well addressed context. -/
theorem isAddressed_of_mem_history (hv : e.dialect.vocabulary.Keeps .addressed)
    (hparents : ∀ p ∈ parents, p.IsCompiled)
    (hdetect : detect e.dialect (.ofSource tree) = .ok directives)
    (ha : a ∈ e.history source parents tree directives) :
    ((e.workshop source parents).context a.before.draft).IsAddressed := by
  have hw := e.workshop_addressed source fun p hp => (isAddressed_of_isCompiled (hparents p hp)).1
  exact hw.context addressed_isFaithful <|
    states_correspond addressed_isFaithful (fun _ => rfl) hv hw (before_mem_states hdetect ha).1

/-- The formulas of directives are kept if what the vocabulary adds is. -/
theorem isKept_of_mem_history (hv : ∀ C, e.dialect.vocabulary.Keeps C)
    (hdetect : detect e.dialect (.ofSource tree) = .ok directives)
    (ha : a ∈ e.history source parents tree directives) {f : Formula}
    (hf : a.directive.action.Has f) : f.IsKept := by
  have hcompiled := (directiveOf_spec (directiveOf_of_mem_history hdetect ha).2).1
  obtain ⟨text, p, htext⟩ := hcompiled f hf
  exact Formula.isKept_of_compile hv htext

/-- A name at the beginning of a lookup counts only where it is found, also if it is missing in a
document that is still to be changed. A name after a chain counts for what it is looked up in as
well: that one of these values is still to be changed is noticed, whether it has the name or not,
and if the chain begins with a computed value, then also for the values that are searched. So
nothing is written for a directive whose action has looked for a name in such a value. -/
theorem absence_is_noticed (c : Context) (pending : List Path) :
    (∀ (name : String) (scope : Scope) (p : Position),
      (evaluate c (.lookup (.property name scope) [] p)).touches pending ↔
        ∃ n, Page.firstMember? name (scope.pages c.document) = some n ∧ n.path.Meets pending) ∧
    (∀ (chain : Chain) (name : String), chain.isTracked →
      ((evaluate c (chain.extend [.member name]).formula).touches pending ↔
        (chain.reach c).touches pending ∨ ∃ view, (chain.reach c).outcome = .ok view ∧
          ((∃ n ∈ view.nodes, n.path.LiesIn pending) ∨
            ∃ n ∈ (view.member name).nodes, n.path.Meets pending))) ∧
    ∀ (chain : Chain) (name : String) (more : List Step) (view : View),
      let f := (chain.extend (.member name :: more)).formula
      chain.isTracked ∨ c.IsAddressed ∧ f.IsKept → (chain.reach c).outcome = .ok view →
        (∀ n ∈ chain.heeded view, n.path.LiesIn pending → (evaluate c f).touches pending) ∧
        ∀ (e : Engine) (source : SourceText) (parents : List Document) (tree : Source)
          (directives : List Directive), ∀ a ∈ e.history source parents tree directives,
            a.fate = .written →
              pendingPaths (e.workshop source parents) a.before.draft a.others = pending →
                (a.computed (e.workshop source parents)).Includes (evaluate c f) →
                  ∀ n ∈ chain.heeded view, ¬ n.path.LiesIn pending := by
  refine ⟨fun name scope p => touches_name_iff name scope p,
    fun chain name h => Chain.touches_member_iff h name, ?_⟩
  intro chain name more view f h hreach
  have hnoticed : ∀ n ∈ chain.heeded view, n.path.LiesIn pending →
      (evaluate c f).touches pending :=
    fun n hn hlies => Chain.touches_of_heeded h hreach hn hlies
  refine ⟨hnoticed, ?_⟩
  rintro e source parents tree directives a ha hfate rfl hincludes n hn hlies
  have hfounded := (e.trail_history source parents tree directives).isFounded a ha
  rw [Event.IsFounded, hfate] at hfounded
  exact hfounded.2 (hincludes.touches (hnoticed n hn hlies))

/-- A string that looks up a name in an object to which this name is still to be copied. -/
def groupedText : SourceText :=
  ⟨"D", "\x7b\"O\":\x7b\"$copyFields\":\"P\"\x7d,\"P\":\x7b\"X\":\"$value(1 + 1)\"\x7d," ++
    "\"V\":\"$value((O).X)\",\"W\":\"$value(V)\"\x7d"⟩

/-- The string waits while the name is missing, and is written when the name is there. -/
theorem absence_is_noticed_grouped :
    let e := Engine.standard (.midnight ⟨2024, 1, 1⟩)
    ∃ tree directives, readJson groupedText.text = .ok tree ∧
      detect e.dialect (.ofSource tree) = .ok directives ∧
        (∃ a ∈ e.history groupedText [] tree directives,
          ∃ (chain : Chain) (name : String) (view : View),
            let c := (e.workshop groupedText []).context a.before.draft
            a.fate = .deferred ∧ chain.isTracked = false ∧ (chain.reach c).outcome = .ok view ∧
              (view.member name).nodes.isEmpty ∧
                (evaluate c (chain.extend [.member name]).formula).touches
                  (pendingPaths (e.workshop groupedText []) a.before.draft a.others)) ∧
        ∃ a ∈ e.history groupedText [] tree directives,
          ∃ (chain : Chain) (name : String) (view : View),
            let c := (e.workshop groupedText []).context a.before.draft
            let pending := pendingPaths (e.workshop groupedText []) a.before.draft a.others
            a.fate = .written ∧ chain.isTracked = false ∧ (chain.reach c).outcome = .ok view ∧
              (view.member name).nodes.isEmpty = false ∧ pending ≠ [] ∧
                (chain.heeded view).isEmpty = false ∧
                  ∀ n ∈ chain.heeded view, ¬ n.path.LiesIn pending := by
  intro e
  have hevents : ((readJson groupedText.text).toOption.bind fun tree =>
      (detect e.dialect (.ofSource tree)).toOption.map fun directives =>
        ((e.history groupedText [] tree directives).any fun a =>
          match a.directive.action with
          | .value (.follow _ [] _) => false
          | .value (.follow base (.member name :: more) p) =>
            let chain := Chain.follow base [] p
            (chain.reach ((e.workshop groupedText []).context a.before.draft)).outcome.toOption.any
              fun view => decide (more.isEmpty ∧ a.fate = .deferred ∧
                (view.member name).nodes.isEmpty ∧ ∃ n ∈ chain.heeded view,
                  ∃ q ∈ pendingPaths (e.workshop groupedText []) a.before.draft a.others,
                    n.path.document = q.document ∧ q.keys <+: n.path.keys)
          | _ => false) &&
        ((e.history groupedText [] tree directives).any fun a =>
          match a.directive.action with
          | .value (.follow _ [] _) => false
          | .value (.follow base (.member name :: more) p) =>
            let chain := Chain.follow base [] p
            (chain.reach ((e.workshop groupedText []).context a.before.draft)).outcome.toOption.any
              fun view => decide (more.isEmpty ∧ a.fate = .written ∧
                (view.member name).nodes.isEmpty = false ∧
                  pendingPaths (e.workshop groupedText []) a.before.draft a.others ≠ [] ∧
                    (chain.heeded view).isEmpty = false ∧
                      (a.computed (e.workshop groupedText [])).outcome.isOk)
          | _ => false)) = some true := by
    decide +kernel
  obtain ⟨tree, htree, hfound⟩ := Option.bind_eq_some_iff.1 hevents
  obtain ⟨directives, hdirectives, hboth⟩ := Option.map_eq_some_iff.1 hfound
  have hdetect := Except.toOption_eq_some_iff.1 hdirectives
  have hv : ∀ C, e.dialect.vocabulary.Keeps C := Vocabulary.standard_keeps
  have hparents : ∀ p ∈ ([] : List Document), p.IsCompiled := by simp
  refine ⟨tree, directives, Except.toOption_eq_some_iff.1 htree, hdetect, ?_⟩
  obtain ⟨hwaits, hwrites⟩ := Bool.and_eq_true_iff.1 hboth
  constructor
  · obtain ⟨a, ha, hholds⟩ := List.any_eq_true.1 hwaits
    have hc := isAddressed_of_mem_history (hv _) hparents hdetect ha
    split at hholds
    · cases hholds
    · rename_i base name more p haction
      obtain ⟨view, hview, hall⟩ := (Option.any_eq_true _ _).1 hholds
      obtain ⟨hmore, hfate, hmissing, n, hn, hlies⟩ := of_decide_eq_true hall
      obtain rfl := List.isEmpty_iff.1 hmore
      have hreach := Except.toOption_eq_some_iff.1 hview
      have hhas : a.directive.action.Has (.follow base [.member name] p) := haction ▸ .value _
      have hnoticed := ((absence_is_noticed _ _).2.2 (.follow base [] p) name [] view
        (.inr ⟨hc, isKept_of_mem_history hv hdetect ha hhas⟩) hreach).1 n hn hlies
      exact ⟨a, ha, .follow base [] p, name, view, hfate, rfl, hreach, hmissing, hnoticed⟩
    · cases hholds
  · obtain ⟨a, ha, hholds⟩ := List.any_eq_true.1 hwrites
    have hc := isAddressed_of_mem_history (hv _) hparents hdetect ha
    split at hholds
    · cases hholds
    · rename_i base name more p haction
      obtain ⟨view, hview, hall⟩ := (Option.any_eq_true _ _).1 hholds
      obtain ⟨hmore, hfate, hthere, hpending, hheeded, hok⟩ := of_decide_eq_true hall
      obtain rfl := List.isEmpty_iff.1 hmore
      obtain ⟨v, hvalue⟩ := Except.exists_of_isOk hok
      have hreach := Except.toOption_eq_some_iff.1 hview
      have hhas : a.directive.action.Has (.follow base [.member name] p) := haction ▸ .value _
      have hunsettled := ((absence_is_noticed _ _).2.2 (.follow base [] p) name [] view
        (.inr ⟨hc, isKept_of_mem_history hv hdetect ha hhas⟩) hreach).2 e groupedText [] tree
          directives a ha hfate rfl (Action.includes_of_has hhas hvalue)
      exact ⟨a, ha, .follow base [] p, name, view, hfate, rfl, hreach, hthere, hpending, hheeded,
        hunsettled⟩
    · cases hholds

/-- A string that looks up a name in the root, to which this name is still to be copied. -/
def absentText : SourceText :=
  ⟨"D", "\x7b\"$copyFields\":\"P\",\"P\":\x7b\"X\":\"$value(1 + 1)\"\x7d," ++
    "\"V\":\"$value(X)\"\x7d"⟩

/-- The name is missing in the root, which is still to be changed, but the lookup does not notice
this. So the string is taken away although the name is there in the end, and nothing is reported. -/
theorem absence_in_root_is_not_noticed :
    let e := Engine.standard (.midnight ⟨2024, 1, 1⟩)
    ∃ tree directives, readJson absentText.text = .ok tree ∧
      detect e.dialect (.ofSource tree) = .ok directives ∧
        (∃ a ∈ e.history absentText [] tree directives, ∃ (name : String) (p : Position),
          let c := (e.workshop absentText []).context a.before.draft
          let pending := pendingPaths (e.workshop absentText []) a.before.draft a.others
          a.directive.action = .value (.lookup (.property name .all) [] p) ∧
            (c.document.root.member? name).isNone ∧ c.document.root.path ∈ pending ∧
              (evaluate c (.lookup (.property name .all) [] p)).touches pending = false ∧
                a.fate = .written) ∧
        (e.compileWithParents absentText []).reports = [] ∧
          ∃ d ∈ (e.compileWithParents absentText []).documents,
            (d.root.member? "X").isSome ∧ (d.root.member? "V").isNone := by
  intro e
  have hevent : ((readJson absentText.text).toOption.bind fun tree =>
      (detect e.dialect (.ofSource tree)).toOption.map fun directives =>
        (e.history absentText [] tree directives).any fun a =>
          match a.directive.action with
          | .value (.lookup _ (_ :: _) _) => false
          | .value (.lookup (.property name .all) [] p) =>
            let c := (e.workshop absentText []).context a.before.draft
            let pending := pendingPaths (e.workshop absentText []) a.before.draft a.others
            decide ((c.document.root.member? name).isNone ∧ c.document.root.path ∈ pending ∧
              (evaluate c (.lookup (.property name .all) [] p)).touches pending = false ∧
                a.fate = .written)
          | _ => false) = some true := by
    decide +kernel
  obtain ⟨tree, htree, hfound⟩ := Option.bind_eq_some_iff.1 hevent
  obtain ⟨directives, hdirectives, hany⟩ := Option.map_eq_some_iff.1 hfound
  obtain ⟨a, ha, hholds⟩ := List.any_eq_true.1 hany
  refine ⟨tree, directives, Except.toOption_eq_some_iff.1 htree,
    Except.toOption_eq_some_iff.1 hdirectives, ?_, by decide +kernel, by decide +kernel⟩
  split at hholds
  · cases hholds
  · rename_i name p haction
    exact ⟨a, ha, name, p, haction, of_decide_eq_true hholds⟩
  · cases hholds

end Engine

end DocQuery
