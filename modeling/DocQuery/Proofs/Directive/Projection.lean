/-
What a projection to computed scalars waits for.

* `Value.isScalar`, `Formula.givesScalars` — scalars that are computed, and lambdas that give such;
* `Chain.projection`, `Chain.projected` — a projection of the items of a chain, and these items;
* `Chain.crosses` — whether the way to the items, or a lambda for one of them, comes across a place
  that is still to be changed;
* `evaluateStep_projection` — what a lambda computes for an item is placed where the item is;
* `touches_projection_iff` — so a projection notices the places of its items, as if they were read;
* `Engine.projection_waits_iff` — the same for the directives of a document;
* `Engine.projection_waits_for_siblings` — strings in the items of an array that wait for each other
  without reading each other.

Design notes: that a computed scalar has the place of an item is seen where the projection ends,
since what a lookup leads to is read as a whole. A lookup that begins with a computed value is not
noticed itself, and there the places do no harm.
-/
import DocQuery.Proofs.Directive.Circle
import DocQuery.Proofs.Formula.Marking

namespace DocQuery

/-! ### Computed scalars -/

/-- Whether a value is a computed scalar. -/
def Value.isScalar : Value → Bool
  | .null | .boolean _ | .number _ | .text _ | .moment _ => true
  | .undefined | .node _ | .nodes _ => false

/-- A computed scalar contributes one value, which stands where the item does. -/
theorem Value.contribution_of_isScalar {v : Value} (h : v.isScalar) (path : Path) :
    ∃ s, v.contribution path = [.scalar (.at path) s] := by
  cases v with
  | null | boolean | number | text | moment => exact ⟨_, rfl⟩
  | undefined | node | nodes => cases h

/-- Whether a lambda gives a computed scalar for each of several items. -/
def Formula.givesScalars (c : Context) (lambda : Nat) (items : List Node) (body : Formula) : Bool :=
  items.zipIdx.all fun item =>
    match (evaluate (c.bind lambda item.1 item.2) body).outcome with
    | .ok v => v.isScalar
    | .error _ => false

theorem Formula.exists_scalar {c : Context} {lambda : Nat} {items : List Node} {body : Formula}
    (h : body.givesScalars c lambda items) : ∀ item ∈ items.zipIdx,
      ∃ v, (evaluate (c.bind lambda item.1 item.2) body).outcome = .ok v ∧ v.isScalar := by
  intro item hitem
  have hone := List.all_eq_true.1 h item hitem
  split at hone
  · rename_i v hv
    exact ⟨v, hv, hone⟩
  · cases hone

/-! ### Projections -/

section Items

variable {pending : List Path} {project : Node × Nat → Traced Value} {items : List (Node × Nat)}

/-- Computed scalars stand where their items do. -/
theorem projectItems_paths
    (h : ∀ item ∈ items, ∃ v, (project item).outcome = .ok v ∧ v.isScalar) :
    ∃ ns, (projectItems project items).outcome = .ok ns ∧
      ns.map Node.path = items.map fun item => item.1.path := by
  induction items with
  | nil => exact ⟨[], rfl, rfl⟩
  | cons item items ih =>
    obtain ⟨v, hv, hscalar⟩ := h item List.mem_cons_self
    obtain ⟨ns, hns, hpaths⟩ := ih fun item' h' => h item' (List.mem_cons_of_mem _ h')
    obtain ⟨s, hs⟩ := v.contribution_of_isScalar hscalar item.1.path
    refine ⟨.scalar (.at item.1.path) s :: ns, ?_, by rw [List.map_cons, hpaths]; rfl⟩
    rw [projectItems, Traced.bind_ok hv, Traced.bind_ok hns, hs]
    rfl

/-- A projection that succeeds notices what the evaluations for the items notice. -/
theorem touches_projectItems_iff (h : ∀ item ∈ items, ∃ v, (project item).outcome = .ok v) :
    (projectItems project items).touches pending ↔
      ∃ item ∈ items, (project item).touches pending := by
  induction items with
  | nil => simp [projectItems]
  | cons item items ih =>
    obtain ⟨v, hv⟩ := h item List.mem_cons_self
    have hrest := ih fun item' h' => h item' (List.mem_cons_of_mem _ h')
    rw [projectItems, Traced.touches_bind_iff, List.exists_mem_cons_iff, ← hrest, hv]
    simp

end Items

section Steps

variable {c : Context} {view : View} {ns : List Node} {lambda : Nat} {body : Formula}
  {position : Position}

/-- A projection to computed scalars leads to values where the items are, and notices what the
evaluations for the items notice. -/
theorem evaluateStep_projection (isTracked : Bool) (pending : List Path)
    (hitems : view.toValue.items LambdaSelector.project.name position = .ok ns)
    (h : body.givesScalars c lambda ns) :
    (∃ projected, projected.map Node.path = ns.map Node.path ∧
      (evaluateStep c isTracked view (.through .project lambda body position)).outcome =
        .ok (.many projected)) ∧
    ((evaluateStep c isTracked view (.through .project lambda body position)).touches pending ↔
      ∃ item ∈ ns.zipIdx, (evaluate (c.bind lambda item.1 item.2) body).touches pending) := by
  have hstep : evaluateStep c isTracked view (.through .project lambda body position) = (do
      Traced.see (unnoticed isTracked ns false)
      View.many <$>
        projectItems (fun item => evaluate (c.bind lambda item.1 item.2) body) ns.zipIdx) := by
    rw [evaluateStep, hitems]
    simp only [LambdaSelector.select, bind_assoc, pure_bind, bind_pure, map_eq_pure_bind]
    rfl
  have hscalar := Formula.exists_scalar h
  obtain ⟨projected, hprojected, hpaths⟩ := projectItems_paths hscalar
  rw [hstep]
  refine ⟨⟨projected, ?_, ?_⟩, ?_⟩
  · have hfst := congrArg (List.map Node.path) (List.zipIdx_map_fst 0 ns)
    rw [List.map_map] at hfst
    exact hpaths.trans hfst
  · rw [Traced.bind_ok (a := ()) rfl, map_eq_pure_bind, Traced.bind_ok hprojected]
    rfl
  · rw [Traced.touches_see_bind_iff, Traced.touches_unnoticed, Traced.touches_map,
      touches_projectItems_iff fun item hitem => (hscalar item hitem).imp fun _ hv => hv.1]
    simp

end Steps

namespace Chain

/-- The items that a function over collections goes through, if it is applied to a chain. There are
none where the chain leads to a fault. -/
def items (c : Context) (function : String) (position : Position) (chain : Chain) : List Node :=
  match (chain.reach c).outcome with
  | .error _ => []
  | .ok view => ((view.toValue.items function position).toOption).getD []

/-- A chain with a projection at its end. -/
def projection (lambda : Nat) (body : Formula) (position : Position) (chain : Chain) : Formula :=
  (chain.extend [.through .project lambda body position]).formula

/-- The items that a projection of a chain goes through. -/
def projected (c : Context) (position : Position) (chain : Chain) : List Node :=
  chain.items c LambdaSelector.project.name position

/-- Whether a place that is still to be changed is noticed when a chain is stepped through, or when
a lambda is evaluated for one of its items. -/
def crosses (c : Context) (pending : List Path) (lambda : Nat) (body : Formula)
    (position : Position) (chain : Chain) : Bool :=
  (chain.passed c).touches pending ||
    (chain.projected c position).zipIdx.any fun item =>
      (evaluate (c.bind lambda item.1 item.2) body).touches pending

end Chain

section Chains

variable {c : Context} {chain : Chain} {pending : List Path} {lambda : Nat} {body : Formula}
  {position : Position}

/-- A projection to computed scalars notices what is noticed on the way to the items and for each of
them, and besides this the places of the items as if these were read, if the chain is noticed. -/
theorem touches_projection_iff
    (h : body.givesScalars c lambda (chain.projected c position)) :
    (evaluate c (chain.projection lambda body position)).touches pending ↔
      chain.crosses c pending lambda body position ∨
        chain.isTracked ∧ ∃ n ∈ chain.projected c position, n.path.Meets pending := by
  rw [Chain.projection, Chain.evaluate_extend_cons, Traced.touches_bind_iff, Chain.outcome_passed,
    Chain.crosses, Bool.or_eq_true, List.any_eq_true, or_assoc]
  refine or_congr_right ?_
  rcases hreach : (chain.reach c).outcome with fault | view
  · simp [Chain.projected, Chain.items, hreach]
  · simp only [Except.ok.injEq, exists_eq_left']
    rcases hitems : view.toValue.items LambdaSelector.project.name position with fault | ns
    · rw [evaluateStep, hitems, bind_assoc, Traced.touches_ofExcept_bind_iff]
      simp [Chain.projected, Chain.items, hreach, hitems, Except.toOption]
    · have hns : chain.projected c position = ns := by
        simp [Chain.projected, Chain.items, hreach, hitems, Except.toOption]
      rw [hns] at h ⊢
      obtain ⟨⟨projected, hpaths, houtcome⟩, htouches⟩ :=
        evaluateStep_projection chain.isTracked pending hitems h
      -- what is read at the end are the values that have been projected
      have hmeets : ∀ ms : List Node, (∃ n ∈ ms, n.path.Meets pending) ↔
          ∃ p ∈ ms.map Node.path, p.Meets pending := by simp
      rw [Traced.touches_bind_iff, htouches, houtcome, hmeets, ← hpaths, ← hmeets]
      refine or_congr_right ?_
      simp only [Except.ok.injEq, exists_eq_left', evaluateSteps, pure_bind,
        Traced.touches_see_bind_iff, Traced.touches_pure, Bool.false_eq_true, or_false]
      cases chain.isTracked
      · simp [Traced.touches, Traced.see]
      · simp [Traced.touches_read_iff, View.nodes]

end Chains

/-! ### Aggregates -/

section Aggregates

variable {pending : List Path} {items : List (Node × Nat)}

/-- To count and to compare values nothing has to be noticed besides what gives the values. -/
theorem Tally.touches_collect {valueOf : Node × Nat → Traced Operand}
    (h : ∀ item, (valueOf item).touches pending = false) (tally : Tally) :
    (tally.collect valueOf items).touches pending = false := by
  induction items generalizing tally with
  | nil => rfl
  | cons item items ih =>
    rw [collect, Bool.eq_false_iff, ne_eq, Traced.touches_bind_iff, h item]
    simp only [Bool.false_eq_true, false_or, Traced.touches_ofExcept_bind_iff, not_exists, not_and]
    rintro a - ⟨next, goesOn⟩ -
    cases goesOn
    · simp
    · simpa using ih next

theorem Aggregate.touches_run (a : Aggregate) (position : Position) (ns : List Node) :
    (a.run position ns).touches pending = false := by
  have hwith : ∀ a : Aggregate,
      (a.runWith (fun item => pure ⟨.node item.1, position⟩) ns).touches pending = false := by
    intro a
    rw [runWith, bind_pure_comp, Traced.touches_map]
    exact Tally.touches_collect (fun _ => rfl) _
  cases a with
  | count | any => rfl
  | all | sum | average | min | max => exact hwith _

/-- An aggregate notices what its collection notices. -/
theorem touches_aggregate_iff {c : Context} {a : Aggregate} {f : Formula} (position : Position) :
    (evaluate c (.aggregate a f position)).touches pending ↔ (evaluate c f).touches pending := by
  rw [evaluate, Traced.touches_bind_iff]
  simp [Traced.touches_ofExcept_bind_iff, Aggregate.touches_run]

end Aggregates

/-! ### Directives that wait -/

/-- Of an event at which a directive is tried, its fate tells whether the action comes across a
place that another directive is still to change. -/
theorem Event.deferred_iff_meetsOthers {w : Workshop} {e : Event} (h : e.IsFounded w)
    (hfate : e.fate = .written ∨ e.fate = .deferred) : e.fate = .deferred ↔ e.meetsOthers w := by
  rw [IsFounded] at h
  rcases hfate with hfate | hfate
  · rw [hfate] at h ⊢
    simpa using h.2
  · rw [hfate] at h ⊢
    simpa using h.2

namespace Engine

/-- A projection to computed scalars comes across the places that the lambda and the way to the
items come across and, if it is noticed itself, those in or around which its items lie. A directive
that is tried with such a projection, or with an aggregate of it, waits for another one just for
this. -/
theorem projection_waits_iff {c : Context} (pending : List Path) {chain : Chain} {lambda : Nat}
    {body : Formula} {position : Position}
    (h : body.givesScalars c lambda (chain.projected c position)) :
    ((evaluate c (chain.projection lambda body position)).touches pending ↔
      chain.crosses c pending lambda body position ∨
        chain.isTracked ∧ ∃ n ∈ chain.projected c position, n.path.Meets pending) ∧
    ∀ (e : Engine) (source : SourceText) (parents : List Document) (tree : Source)
      (directives : List Directive), ∀ a ∈ e.history source parents tree directives,
        a.fate = .written ∨ a.fate = .deferred →
          (e.workshop source parents).context a.before.draft = c →
            pendingPaths (e.workshop source parents) a.before.draft a.others = pending →
              ∀ f, a.directive.action = .value f →
                (f = chain.projection lambda body position ∨
                  ∃ g q, f = .aggregate g (chain.projection lambda body position) q) →
                (a.fate = .deferred ↔ chain.crosses c pending lambda body position ∨
                  chain.isTracked ∧ ∃ n ∈ chain.projected c position, n.path.Meets pending) := by
  refine ⟨touches_projection_iff h, ?_⟩
  rintro e source parents tree directives a ha hfate rfl rfl f haction hf
  have hfounded := (e.trail_history source parents tree directives).isFounded a ha
  rw [Event.deferred_iff_meetsOthers hfounded hfate, ← touches_projection_iff h, Event.meetsOthers,
    Event.computed, haction]
  rcases hf with rfl | ⟨g, q, rfl⟩
  · exact Iff.rfl
  · exact touches_aggregate_iff q

/-- A sum over an array of numbers, with another directive beside it. -/
def besideText : SourceText :=
  ⟨"D", "\x7b\"A\":[\x7b\"P\":1\x7d,\x7b\"P\":3\x7d]," ++
    "\"T\":\"$value(Sum(A.Select(x => x.P * 2)))\",\"U\":\"$value(1)\"\x7d"⟩

/-- Outside the items nothing waits: the sum is written when it is tried first. -/
theorem projection_waits_beside :
    let e := Engine.standard (.midnight ⟨2024, 1, 1⟩)
    ∃ tree directives, readJson besideText.text = .ok tree ∧
      detect e.dialect (.ofSource tree) = .ok directives ∧
        ∃ a ∈ e.history besideText [] tree directives,
        ∃ (g : Aggregate) (chain : Chain) (lambda : Nat) (body : Formula) (position q : Position),
          let c := (e.workshop besideText []).context a.before.draft
          let pending := pendingPaths (e.workshop besideText []) a.before.draft a.others
          (a.fate = .written ∨ a.fate = .deferred) ∧ pending ≠ [] ∧
            a.directive.action = .value (.aggregate g (chain.projection lambda body position) q) ∧
              body.givesScalars c lambda (chain.projected c position) ∧
                (a.fate = .deferred ↔ chain.crosses c pending lambda body position ∨
                  chain.isTracked ∧ ∃ n ∈ chain.projected c position, n.path.Meets pending) := by
  intro e
  have hevent : ((readJson besideText.text).toOption.bind fun tree =>
      (detect e.dialect (.ofSource tree)).toOption.map fun directives =>
        (e.history besideText [] tree directives).any fun a =>
          match a.directive.action with
          | .value (.aggregate _ (.lookup _ [] _) _) => false
          | .value (.aggregate _ (.lookup start (.through .project lambda body position :: more) p)
              _) =>
            let c := (e.workshop besideText []).context a.before.draft
            decide (more.isEmpty ∧ a.fate = .written ∧
              pendingPaths (e.workshop besideText []) a.before.draft a.others ≠ [] ∧
                body.givesScalars c lambda ((Chain.lookup start [] p).projected c position))
          | _ => false) = some true := by
    decide +kernel
  obtain ⟨tree, htree, hfound⟩ := Option.bind_eq_some_iff.1 hevent
  obtain ⟨directives, hdirectives, hany⟩ := Option.map_eq_some_iff.1 hfound
  obtain ⟨a, ha, hholds⟩ := List.any_eq_true.1 hany
  split at hholds
  · cases hholds
  · rename_i g start lambda body position more p q haction
    obtain ⟨hmore, hfate, hpending, hscalars⟩ := of_decide_eq_true hholds
    obtain rfl := List.isEmpty_iff.1 hmore
    refine ⟨tree, directives, Except.toOption_eq_some_iff.1 htree,
      Except.toOption_eq_some_iff.1 hdirectives, a, ha, g, .lookup start [] p, lambda, body,
      position, q, .inl hfate, hpending, haction, hscalars, ?_⟩
    exact (projection_waits_iff _ hscalars).2 e besideText [] tree directives a ha (.inl hfate) rfl
      rfl _ haction (.inr ⟨g, q, rfl⟩)
  · cases hholds

/-- Sums over the items of an array, in two of these items. -/
def siblingText : SourceText :=
  ⟨"D", "\x7b\"A\":[\x7b\"P\":1,\"T\":\"$value(Sum(A.Select(x => x.P * 2)))\"\x7d," ++
    "\x7b\"P\":3,\"T\":\"$value(Sum(A.Select(x => x.P * 2)))\"\x7d]\x7d"⟩

/-- Sums in the items of an array wait for each other although none is computed from another one,
and both are reported as circular. -/
theorem projection_waits_for_siblings :
    let e := Engine.standard (.midnight ⟨2024, 1, 1⟩)
    ∃ tree directives, readJson siblingText.text = .ok tree ∧
      detect e.dialect (.ofSource tree) = .ok directives ∧ directives.length = 2 ∧
        (∃ a ∈ e.history siblingText [] tree directives,
        ∃ (g : Aggregate) (chain : Chain) (lambda : Nat) (body : Formula) (position q : Position),
          let c := (e.workshop siblingText []).context a.before.draft
          let pending := pendingPaths (e.workshop siblingText []) a.before.draft a.others
          a.directive.action = .value (.aggregate g (chain.projection lambda body position) q) ∧
            body.givesScalars c lambda (chain.projected c position) ∧
              chain.crosses c pending lambda body position = false ∧
                (evaluate c (chain.projection lambda body position)).touches pending ∧
                  a.fate = .deferred) ∧
        (e.compileWithParents siblingText []).reports =
          directives.map (circularReport siblingText.id) := by
  intro e
  have hevent : ((readJson siblingText.text).toOption.bind fun tree =>
      (detect e.dialect (.ofSource tree)).toOption.map fun directives =>
        ((e.history siblingText [] tree directives).any fun a =>
          match a.directive.action with
          | .value (.aggregate _ (.lookup _ [] _) _) => false
          | .value (.aggregate _ (.lookup start (.through .project lambda body position :: more) p)
              _) =>
            let c := (e.workshop siblingText []).context a.before.draft
            let pending := pendingPaths (e.workshop siblingText []) a.before.draft a.others
            let chain := Chain.lookup start [] p
            decide (more.isEmpty ∧ body.givesScalars c lambda (chain.projected c position) ∧
              chain.crosses c pending lambda body position = false ∧
                (evaluate c (chain.projection lambda body position)).touches pending ∧
                  a.fate = .deferred)
          | _ => false) &&
        decide (directives.length = 2 ∧ (e.compileWithParents siblingText []).reports =
          directives.map (circularReport siblingText.id))) = some true := by
    decide +kernel
  obtain ⟨tree, htree, hfound⟩ := Option.bind_eq_some_iff.1 hevent
  obtain ⟨directives, hdirectives, hboth⟩ := Option.map_eq_some_iff.1 hfound
  obtain ⟨hany, hends⟩ := Bool.and_eq_true_iff.1 hboth
  obtain ⟨a, ha, hholds⟩ := List.any_eq_true.1 hany
  obtain ⟨hlength, hreports⟩ := of_decide_eq_true hends
  refine ⟨tree, directives, Except.toOption_eq_some_iff.1 htree,
    Except.toOption_eq_some_iff.1 hdirectives, hlength, ?_, hreports⟩
  split at hholds
  · cases hholds
  · rename_i g start lambda body position more p q haction
    obtain ⟨hmore, hwaits⟩ := of_decide_eq_true hholds
    obtain rfl := List.isEmpty_iff.1 hmore
    exact ⟨a, ha, g, .lookup start [] p, lambda, body, position, q, haction, hwaits⟩
  · cases hholds

end Engine

end DocQuery
