/-
What is noticed of the values that formulas lead to.

* `Path.IsCovered` — places that lie in something that was noticed as a whole;
* `Correspondence.covered` — well addressed values that are computed scalars or in such places;
* `Traced.Leads` — what holds of the result of an evaluation, as far as it has been seen;
* `Formula.IsKept` — formulas that respect every correspondence, and the formulas inside them;
* `evaluate_covered` — all that such a formula leads to has been noticed as a whole;
* `Chain.reach_covered` — so has all that a chain reaches which begins with a computed value.

Design notes: a lookup reads the whole of what it ends with, and every other formula only hands on
what lookups have read or computes a scalar. So the induction goes down where values are handed on,
and nothing has to be known of the operands of functions.
-/
import DocQuery.Proofs.Directive.Addresses
import DocQuery.Proofs.Formula.Counting
import DocQuery.Proofs.Formula.Kinds
import DocQuery.Proofs.Formula.Marking

namespace DocQuery

/-! ### Places that have been noticed -/

/-- Whether a place lies in something that was noticed as a whole. -/
def Path.IsCovered (seen : List Sighting) (p : Path) : Prop :=
  ∃ s ∈ seen, s.isNoticed ∧ s.isWhole ∧ s.path.document = p.document ∧ s.path.keys <+: p.keys

namespace Path.IsCovered

variable {seen : List Sighting} {p : Path}

theorem child (h : p.IsCovered seen) (key : Key) : (p.child key).IsCovered seen := by
  obtain ⟨s, hs, hnoticed, hwhole, hdocument, hkeys⟩ := h
  exact ⟨s, hs, hnoticed, hwhole, hdocument, hkeys.trans (List.prefix_append _ _)⟩

/-- An evaluation that has noticed something around a place notices that this place, or one around
it, is still to be changed. -/
theorem touches {α : Type} {x : Traced α} {pending : List Path} (h : p.IsCovered x.sightings)
    (hlies : p.LiesIn pending) : x.touches pending := by
  obtain ⟨s, hs, hnoticed, hwhole, hdocument, hkeys⟩ := h
  obtain ⟨q, hq, hdocument', hkeys'⟩ := hlies
  refine Traced.touches_iff.2 ⟨s, hs, q, hq, ?_⟩
  have hreaches : s.reaches q := by
    rw [Sighting.reaches_iff]
    -- both are around the place, so one of them is around the other
    refine ⟨hdocument.trans hdocument', ?_⟩
    exact (List.prefix_or_prefix_of_prefix hkeys' hkeys).imp_right fun h => ⟨hwhole, h⟩
  rw [Sighting.touches, hnoticed, hreaches]
  rfl

end Path.IsCovered

namespace Correspondence

/-- Well addressed values, related to themselves only, that are scalars or stand in a place that was
noticed as a whole. -/
def covered (seen : List Sighting) : Correspondence where
  node n n' := n = n' ∧ n.IsAddressed ∧ (n.scalar? = none → n.path.IsCovered seen)
  path p p' := p = p'
  position p p' := p = p'
  form := by
    rintro n _ ⟨rfl, haddressed, hcovered⟩
    cases haddressed with
    | object p _ hpaths hall =>
      refine .object p p (List.forall₂_same.2 fun m hm => ⟨rfl, rfl, hall m hm, fun _ => ?_⟩)
      rw [hpaths m hm]
      exact (hcovered rfl).child _
    | array p hpaths hall =>
      refine .array p p (List.forall₂_same.2 fun n hn => ⟨rfl, hall n hn, fun _ => ?_⟩)
      obtain ⟨i, hi⟩ := List.mem_iff_getElem?.1 hn
      rw [hpaths i n hi]
      exact (hcovered rfl).child _
    | scalar p s => exact .scalar p p s
  path_of_node h := congrArg Node.path h.1
  computed := by
    rintro n _ ⟨rfl, _⟩ s
    exact ⟨rfl, .scalar _ s, fun h => absurd h (Option.some_ne_none s)⟩

variable {seen : List Sighting} {v : Value}

/-- A well addressed value that was read as a whole is covered. -/
theorem covered_of_sightings (h : addressed.Values v v) (hseen : v.sightings ⊆ seen) :
    (covered seen).Values v v := by
  have hread : ∀ ns : List Node, DocQuery.sightingsOf ns true ⊆ seen →
      ∀ n ∈ ns, n.path.IsCovered seen :=
    fun ns hns n hn => ⟨_, hns (List.mem_map_of_mem hn), rfl, rfl, rfl, List.prefix_refl _⟩
  cases h with
  | computed hv => exact .computed hv
  | @node n _ hn => exact .node ⟨rfl, hn.2, fun _ => hread [n] hseen n List.mem_cons_self⟩
  | @nodes ns _ hns =>
    refine .nodes (List.forall₂_same.2 fun n hn => ⟨rfl, ?_, fun _ => hread ns hseen n hn⟩)
    exact (List.forall₂_same.1 hns n hn).2

end Correspondence

/-! ### Results of evaluations -/

/-- Whether the result of an evaluation has a property, if all that the evaluation sees has been
seen. -/
def Traced.Leads {α : Type} (seen : List Sighting) (R : α → Prop) (x : Traced α) : Prop :=
  x.sightings ⊆ seen → ∀ a, x.outcome = .ok a → R a

namespace Traced.Leads

variable {α β : Type} {seen more : List Sighting} {R : α → Prop} {S : β → Prop}

theorem ofExcept {o : Except Fault α} (h : ∀ a, o = .ok a → R a) :
    Leads seen R (Traced.ofExcept o) :=
  fun _ => h

theorem pure {a : α} (h : R a) : Leads seen R (Pure.pure a : Traced α) :=
  ofExcept fun _ heq => Except.ok.inj heq ▸ h

theorem bind {x : Traced α} {f : α → Traced β} (h : Leads seen R x)
    (hf : ∀ a, R a → Leads seen S (f a)) : Leads seen S (x >>= f) := by
  intro hsub b hb
  obtain ⟨a, ha, hnext⟩ := Traced.outcome_bind_eq_ok_iff.1 hb
  rw [Traced.bind_ok ha] at hsub
  obtain ⟨hfirst, hrest⟩ := List.append_subset.1 hsub
  exact hf a (h hfirst a ha) hrest b hnext

/-- The rest may go on with any result. -/
theorem bind_any {x : Traced α} {f : α → Traced β} (hf : ∀ a, Leads seen S (f a)) :
    Leads seen S (x >>= f) :=
  bind (R := fun _ => True) (fun _ _ _ => trivial) fun a _ => hf a

/-- What is seen first has been seen. -/
theorem see {x : Traced β} (h : more ⊆ seen → Leads seen S x) :
    Leads seen S (Traced.see more >>= fun _ => x) :=
  bind (R := fun _ => more ⊆ seen) (fun hsub _ _ => hsub) fun _ => h

theorem ite {b : Bool} {x y : Traced α} (h : Leads seen R x) (h' : Leads seen R y) :
    Leads seen R (if b then x else y) := by
  cases b
  · exact h'
  · exact h

theorem mono {x : Traced α} {R' : α → Prop} (h : Leads seen R x) (himp : ∀ a, R a → R' a) :
    Leads seen R' x :=
  fun hsub a ha => himp a (h hsub a ha)

end Traced.Leads

open Traced (Leads)

/-! ### Values that are computed -/

section Computed

variable {options : Options} {position : Position} {v : Value} {seen : List Sighting}

/-- What fits a kind of scalars is computed. -/
theorem Kind.Fits.isComputed {k : Kind} (h : k.Fits v) (hk : k.type?.isSome) : v.isComputed := by
  obtain ⟨type, htype⟩ := Option.isSome_iff_exists.1 hk
  have hv := h type htype
  cases v with
  | boolean | number | text | moment | undefined | null => rfl
  | node | nodes => cases hv

theorem UnaryFunction.isComputed_of_run {f : UnaryFunction} {a : Operand}
    (h : f.run options a = .ok v) : v.isComputed :=
  (run_fits h).isComputed (by cases f <;> rfl)

theorem BinaryOperation.isComputed_of_run {o : BinaryOperation} {a b : Operand}
    (h : o.run options position a b = .ok v) : v.isComputed := by
  cases o with
  | sum =>
    rw [run, add] at h
    split at h
    all_goals
    · obtain ⟨_, -, h⟩ := Except.bind_eq_ok_iff.1 h
      obtain ⟨_, -, h⟩ := Except.bind_eq_ok_iff.1 h
      obtain rfl := Except.ok.inj h
      rfl
  | arithmetic | equal | unequal | relation => exact (run_fits h).isComputed rfl

theorem Aggregate.runWith_computed (a : Aggregate) (valueOf : Node × Nat → Traced Operand)
    (ns : List Node) : (a.runWith valueOf ns).Leads seen fun v => v.isComputed :=
  .bind_any fun tally => .pure (Correspondence.result tally)

theorem Aggregate.run_computed (a : Aggregate) (position : Position) (ns : List Node) :
    (a.run position ns).Leads seen fun v => v.isComputed := by
  cases a with
  | count | any => exact .pure rfl
  | all | sum | average | min | max => exact runWith_computed _ _ ns

end Computed

/-! ### Selectors and positions -/

section Selections

variable {C : Correspondence} {seen : List Sighting} {items : List (Node × Nat)} {ns : List Node}

theorem filterItems_leads (test : Node × Nat → Traced Bool)
    (h : ∀ item ∈ items, C.node item.1 item.1) :
    (filterItems test items).Leads seen fun ns => List.Forall₂ C.node ns ns := by
  induction items with
  | nil => exact .pure .nil
  | cons item items ih =>
    rw [List.forall_mem_cons] at h
    rw [filterItems]
    refine .bind_any fun passes => (ih h.2).bind fun rest hrest => .pure ?_
    cases passes
    · exact hrest
    · exact .cons h.1 hrest

theorem projectItems_leads {project : Node × Nat → Traced Value}
    (h : ∀ item ∈ items, C.node item.1 item.1)
    (hproject : ∀ item ∈ items, (project item).Leads seen fun v => C.Values v v) :
    (projectItems project items).Leads seen fun ns => List.Forall₂ C.node ns ns := by
  induction items with
  | nil => exact .pure .nil
  | cons item items ih =>
    rw [List.forall_mem_cons] at h hproject
    rw [projectItems]
    refine hproject.1.bind fun v hv => (ih h.2 hproject.2).bind fun rest hrest => .pure ?_
    exact List.rel_append (hv.contribution h.1) hrest

theorem findItem_leads (test : Node × Nat → Traced Bool)
    (h : ∀ item ∈ items, C.node item.1 item.1) :
    (findItem test items).Leads seen fun found => Option.Rel C.node found found := by
  induction items with
  | nil => exact .pure .none
  | cons item items ih =>
    rw [List.forall_mem_cons] at h
    rw [findItem]
    exact .bind_any fun passes => .ite (.pure (.some h.1)) (ih h.2)

/-- A selector leads to items, and to what its lambda leads to. -/
theorem LambdaSelector.select_leads {valueOf : Node × Nat → Traced Operand}
    (h : List.Forall₂ C.node ns ns)
    (hvalue : ∀ item : Node × Nat, C.node item.1 item.1 →
      (valueOf item).Leads seen fun a => C.Values a.value a.value) (selector : LambdaSelector) :
    (selector.select valueOf ns).Leads seen fun view => C.Views view view := by
  have hitems : ∀ item ∈ ns.zipIdx, C.node item.1 item.1 := fun item hitem =>
    List.forall₂_same.1 h _ (List.fst_mem_of_mem_zipIdx hitem)
  cases selector with
  | filter => exact (filterItems_leads _ hitems).bind fun chosen hchosen => .pure (.many hchosen)
  | project =>
    refine (projectItems_leads hitems fun item hitem => ?_).bind fun _ h => .pure (.many h)
    exact (hvalue item (hitems item hitem)).bind fun a ha => .pure ha
  | first => exact (findItem_leads _ hitems).bind fun found hfound => .pure (.single hfound)
  | last =>
    refine (findItem_leads _ fun item hitem => ?_).bind fun found hfound => .pure (.single hfound)
    exact hitems item (List.mem_reverse.1 hitem)

theorem evaluateIndexes_leads {c : Context} {isTracked : Bool} {view : View}
    (h : C.Views view view) (fs : List Formula) :
    (evaluateIndexes c isTracked view fs).Leads seen fun view => C.Views view view := by
  induction fs generalizing view with
  | nil =>
    rw [evaluateIndexes]
    exact .pure h
  | cons f fs ih =>
    rw [evaluateIndexes]
    refine .bind_any fun v => .bind_any fun index => .see fun _ => ih ?_
    cases index with
    | none => exact .single .none
    | some i => exact h.item i

theorem evaluateAt_leads {c : Context} {isTracked : Bool} {found : Option Node}
    (h : List.Forall₂ C.node ns ns) (hfound : Option.Rel C.node found found)
    (fs : List Formula) :
    (evaluateAt c isTracked ns found fs).Leads seen fun found => Option.Rel C.node found found := by
  induction fs generalizing ns found with
  | nil =>
    rw [evaluateAt]
    exact .pure hfound
  | cons f fs ih =>
    rw [evaluateAt_cons]
    refine .bind_any fun v => .bind_any fun index => .see fun _ => ?_
    have hitem : Option.Rel C.node (index.bind fun i => ns[i]?) (index.bind fun i => ns[i]?) := by
      cases index with
      | none => exact .none
      | some i => exact Correspondence.getElem? h i
    generalize (index.bind fun i => ns[i]?) = item at hitem ⊢
    cases hitem with
    | none => exact .pure .none
    | some hn => exact ih (Correspondence.items hn) (.some hn)

end Selections

/-! ### Formulas that are kept -/

/-- Whether a formula respects every correspondence, wherever its lookups begin. -/
def Formula.IsKept (f : Formula) : Prop :=
  ∀ C : Correspondence, (∀ p, C.position p p) → f.Corresponds C (fun _ => True) f

/-- Whether a step of a lookup respects every correspondence. -/
def Step.IsKept (step : Step) : Prop :=
  ∀ C : Correspondence, (∀ p, C.position p p) → step.Corresponds C (fun _ => True) step

/-- The formula of a text is kept if what its vocabulary adds is. -/
theorem Formula.isKept_of_compile {d : Dialect} (hv : ∀ C, d.vocabulary.Keeps C) {text : String}
    {p : Position} {f : Formula} (h : compileExpression d text p = .ok f) : f.IsKept :=
  fun C hposition => compileExpression_kept (hv C) hposition h

theorem Step.AllCorrespond.of_mem {C : Correspondence} {Begins : Start → Prop} {steps : List Step}
    (h : Step.AllCorrespond C Begins steps steps) : ∀ step ∈ steps,
      step.Corresponds C Begins step := by
  induction steps with
  | nil => exact List.forall_mem_nil _
  | cons step steps ih =>
    cases h with
    | cons hstep hsteps => exact List.forall_mem_cons.2 ⟨hstep, ih hsteps⟩

namespace Formula.IsKept

variable {C : Correspondence} {p : Position} {f g condition : Formula} {steps : List Step}

theorem constant {v : Value} (h : (Formula.constant v p).IsKept) (hp : ∀ p, C.position p p) :
    C.Values v v := by
  cases h C hp with
  | constant hv _ => exact hv

theorem assert (h : (Formula.assert f p).IsKept) : f.IsKept := fun C hp => by
  cases h C hp with
  | assert hf _ => exact hf

theorem fallback (h : (Formula.fallback f g p).IsKept) : f.IsKept ∧ g.IsKept := by
  refine ⟨fun C hp => ?_, fun C hp => ?_⟩
  · cases h C hp with
    | fallback hf _ _ => exact hf
  · cases h C hp with
    | fallback _ hg _ => exact hg

theorem choose (h : (Formula.choose condition f g p).IsKept) : f.IsKept ∧ g.IsKept := by
  refine ⟨fun C hp => ?_, fun C hp => ?_⟩
  · cases h C hp with
    | choose _ hf _ _ => exact hf
  · cases h C hp with
    | choose _ _ hg _ => exact hg

theorem follow (h : (Formula.follow f steps p).IsKept) :
    f.IsKept ∧ ∀ step ∈ steps, step.IsKept := by
  refine ⟨fun C hp => ?_, fun step hstep C hp => ?_⟩
  · cases h C hp with
    | follow hf _ _ => exact hf
  · cases h C hp with
    | follow _ hsteps _ => exact hsteps.of_mem step hstep

theorem operation {o : Operation} {fs : List Formula} (h : (Formula.operation o fs p).IsKept)
    (hp : ∀ p, C.position p p) (vs : List Value) : C.Values (o.compute vs) (o.compute vs) := by
  cases h C hp with
  | operation ho _ _ => exact ho vs

end Formula.IsKept

namespace Step.IsKept

variable {C : Correspondence} {p : Position}

theorem arrange {a : Arrangement} (h : (Step.arrange a p).IsKept) (hp : ∀ p, C.position p p) :
    C.Keeps a := by
  cases h C hp with
  | arrange ha _ => exact ha

theorem through {selector : LambdaSelector} {lambda : Nat} {body : Formula}
    (h : (Step.through selector lambda body p).IsKept) : body.IsKept := fun C hp => by
  cases h C hp with
  | through _ _ hbody _ => exact hbody

end Step.IsKept

/-! ### Values of formulas -/

section Evaluation

open Correspondence (covered covered_of_sightings)

variable {seen : List Sighting}

/-- Whether the document of a context and the items of its lambdas are well addressed, and so is all
that the document inherits from. -/
abbrev Context.IsAddressed (c : Context) : Prop := c.Corresponds .addressed (fun _ => True) c

/-- Inside a lambda for a well addressed item. -/
theorem Context.IsAddressed.bind {c : Context} (hc : c.IsAddressed) (lambda : Nat)
    {item : Node × Nat} (hitem : (covered seen).node item.1 item.1) :
    (c.bind lambda item.1 item.2).IsAddressed :=
  Context.Corresponds.bind hc lambda ⟨⟨rfl, hitem.2.1⟩, rfl⟩

/-- The items that a function over collections goes through are covered if the collection is. -/
theorem items_covered {view : View} (h : (covered seen).Views view view) {function : String}
    {position : Position} {ns : List Node}
    (hns : view.toValue.items function position = .ok ns) :
    List.Forall₂ (covered seen).node ns ns := by
  have hboth := Correspondence.itemsOf h.toValue (rfl : (covered seen).position position position)
    function
  rw [hns] at hboth
  cases hboth with
  | ok hitems => exact hitems

/-- Steps go on from a covered value with a covered view, also if it has to be placed first. -/
theorem ofValue_covered {v : Value} (h : (covered seen).Values v v) (document : String) :
    (covered seen).Views (.ofValue (.root document) v) (.ofValue (.root document) v) :=
  .ofValue h fun s => ⟨rfl, .scalar _ s, fun hnone => absurd hnone (Option.some_ne_none s)⟩

/-- A lookup reads the whole of what it leads to. -/
theorem lookup_covered {c : Context} (hc : c.IsAddressed) {start : Start} {steps : List Step}
    {p : Position} (h : (Formula.lookup start steps p).IsKept) :
    (evaluate c (.lookup start steps p)).Leads seen fun v => (covered seen).Values v v := by
  have hread : (evaluate c (.lookup start steps p)).Leads seen fun v => v.sightings ⊆ seen := by
    rw [evaluate]
    refine .see fun _ => .bind_any fun first => .ite (.see fun hseen => .pure hseen) ?_
    exact .bind_any fun view => .see fun hseen => .pure hseen
  intro hsub v hv
  have haddressed := (evaluate_corresponds hc (h .addressed fun _ => rfl)).outcome
  rw [hv] at haddressed
  cases haddressed with
  | ok hvalue => exact covered_of_sightings hvalue (hread hsub v hv)

mutual

/-- All that a formula leads to has been noticed as a whole. -/
theorem evaluate_covered {seen : List Sighting} {c : Context} (hc : c.IsAddressed) {f : Formula}
    (h : f.IsKept) : (evaluate c f).Leads seen fun v => (covered seen).Values v v := by
  match f with
  | .constant v _ =>
    rw [evaluate]
    exact .pure (h.constant fun _ => rfl)
  | .apply function operand _ =>
    rw [evaluate]
    exact .bind_any fun v => .ofExcept fun w hw =>
      .computed (UnaryFunction.isComputed_of_run hw)
  | .assert operand position =>
    rw [evaluate]
    refine (evaluate_covered hc h.assert).bind fun v hv => .ofExcept fun w hw => ?_
    obtain rfl := Value.asserted_eq_ok hw
    exact hv
  | .binary o left right position =>
    rw [evaluate]
    exact .bind_any fun a => .bind_any fun b => .ofExcept fun w hw =>
      .computed (BinaryOperation.isComputed_of_run hw)
  | .both left right _ =>
    rw [evaluate]
    exact .bind_any fun a => .bind_any fun holds =>
      .ite (.bind_any fun b => .bind_any fun holds => .pure (.computed rfl)) (.pure (.computed rfl))
  | .either left right _ =>
    rw [evaluate]
    exact .bind_any fun a => .bind_any fun holds =>
      .ite (.pure (.computed rfl)) (.bind_any fun b => .bind_any fun holds => .pure (.computed rfl))
  | .fallback value alternative _ =>
    have halternative : (evaluate c alternative).Leads seen fun v => (covered seen).Values v v :=
      evaluate_covered hc h.fallback.2
    rw [evaluate]
    refine (evaluate_covered hc h.fallback.1).bind fun v hv => .ite halternative ?_
    rcases alternative.kind.type? with _ | type
    · exact .pure hv
    · simp only
      rcases hconverted : v.convert? c.options type with _ | w
      · exact halternative
      · exact .pure (.computed (Value.isComputed_of_convert? hconverted))
  | .test t whole part _ =>
    rw [evaluate]
    exact .bind_any fun a => .bind_any fun s => .bind_any fun b => .bind_any fun t =>
      .pure (.computed rfl)
  | .concatenate parts _ =>
    rw [evaluate]
    exact .bind_any fun texts => .pure (.computed rfl)
  | .choose condition yes no _ =>
    rw [evaluate]
    exact .bind_any fun v => .bind_any fun holds =>
      .ite (evaluate_covered hc h.choose.1) (evaluate_covered hc h.choose.2)
  | .now _ =>
    rw [evaluate]
    exact .pure (.computed rfl)
  | .aggregate a collection _ =>
    rw [evaluate]
    exact .bind_any fun v => .bind_any fun items =>
      (a.run_computed _ items).mono fun _ => .computed
  | .aggregateBy a collection lambda body _ =>
    rw [evaluate]
    exact .bind_any fun v => .bind_any fun items =>
      (a.runWith_computed _ items).mono fun _ => .computed
  | .lookup start steps _ => exact lookup_covered hc h
  | .follow base steps _ =>
    rw [evaluate]
    refine (evaluate_covered hc h.follow.1).bind fun first hfirst => .ite (.pure hfirst) ?_
    have hview := ofValue_covered hfirst c.document.id
    exact (evaluateSteps_covered hc hview h.follow.2).bind fun view hview => .pure hview.toValue
  | .operation o arguments _ =>
    rw [evaluate]
    exact .bind_any fun values => .pure (h.operation (fun _ => rfl) values)

/-- Steps lead on inside what has been noticed as a whole. -/
theorem evaluateSteps_covered {seen : List Sighting} {c : Context} (hc : c.IsAddressed)
    {view : View} (hview : (covered seen).Views view view) {steps : List Step}
    (h : ∀ step ∈ steps, step.IsKept) :
    (evaluateSteps c false view steps).Leads seen fun view => (covered seen).Views view view := by
  match steps with
  | [] =>
    rw [evaluateSteps]
    exact .pure hview
  | step :: steps =>
    rw [List.forall_mem_cons] at h
    rw [evaluateSteps]
    exact .see fun _ => (evaluateStep_covered hc hview h.1).bind fun next hnext =>
      evaluateSteps_covered hc hnext h.2

theorem evaluateStep_covered {seen : List Sighting} {c : Context} (hc : c.IsAddressed)
    {view : View} (hview : (covered seen).Views view view) {step : Step} (h : step.IsKept) :
    (evaluateStep c false view step).Leads seen fun view => (covered seen).Views view view := by
  match step with
  | .member name =>
    rw [evaluateStep]
    exact .see fun _ => .pure (hview.member name)
  | .index indexes =>
    rw [evaluateStep]
    exact evaluateIndexes_leads hview indexes
  | .at indexes position =>
    rw [evaluateStep]
    refine (Leads.ofExcept fun ns hns => items_covered hview hns).bind fun ns hns => ?_
    exact (evaluateAt_leads hns .none indexes).bind fun found hfound => .pure (.single hfound)
  | .arrange arrangement position =>
    rw [evaluateStep]
    refine (Leads.ofExcept fun ns hns => items_covered hview hns).bind fun ns hns => ?_
    exact .see fun _ => .pure (h.arrange (fun _ => rfl) ns ns hns)
  | .through selector lambda body position =>
    rw [evaluateStep]
    refine (Leads.ofExcept fun ns hns => items_covered hview hns).bind fun ns hns => ?_
    refine .see fun _ => selector.select_leads hns fun item hitem => ?_
    -- what the lambda leads to for an item is covered by what is read inside the lambda
    exact (evaluate_covered (hc.bind lambda hitem) h.through).bind fun v hv => .pure hv

end

end Evaluation

/-! ### Chains -/

namespace Chain

open Correspondence (covered)

variable {c : Context} {chain : Chain} {more : List Step} {pending : List Path} {view : View}
  {n : Node}

/-- All that a chain reaches which begins with a computed value has been noticed as a whole. -/
theorem reach_covered {seen : List Sighting} (hc : c.IsAddressed) (hchain : chain.isTracked = false)
    (hne : more ≠ []) (h : (chain.extend more).formula.IsKept) :
    (chain.reach c).Leads seen fun view => (covered seen).Views view view := by
  cases chain with
  | qualifier | lookup => cases hchain
  | follow base steps p =>
    rw [formula_extend_follow base steps p hne] at h
    obtain ⟨hbase, hsteps⟩ := h.follow
    rw [reach]
    refine (evaluate_covered hc hbase).bind fun first hfirst => ?_
    have hview := ofValue_covered hfirst c.document.id
    exact evaluateSteps_covered hc hview fun step hstep =>
      hsteps step (List.mem_append_left more hstep)

end Chain

end DocQuery
