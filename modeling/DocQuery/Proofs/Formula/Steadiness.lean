/-
Evaluations that give the same in two documents.

* `Traced.Steady` — a computation that gives the same as another one, unless it depends on one of
  the places in which they differ;
* `Context.Agrees` — two contexts whose documents agree but for such places;
* `evaluate_steady`, `compute_steady` — a formula has the same value in both, and an action gives
  the same.

Design notes: the relation between results is carried through the binds of the evaluation, from the
sightings of each step to what the next one may rely on. A lookup that is not tracked begins with a
computed value, which is the same in both contexts, and so no place counts for it.
-/
import DocQuery.Directive.Apply
import DocQuery.Proofs.Formula.Agreement
import DocQuery.Proofs.Formula.Counting

namespace DocQuery

/-- Whether two outcomes are one fault, or results that are in relation. -/
inductive Matches {α β : Type} (R : α → β → Prop) : Except Fault α → Except Fault β → Prop
  | ok {a : α} {b : β} : R a b → Matches R (.ok a) (.ok b)
  | error (fault : Fault) : Matches R (.error fault) (.error fault)

/-- Whether a computation gives the same as another one, unless it depends on one of the places. -/
def Traced.Steady {α β : Type} (pending : List Path) (R : α → β → Prop) (x : Traced α)
    (y : Traced β) : Prop :=
  Unreached pending x.sightings → Matches R x.outcome y.outcome

theorem Traced.dependsOn_eq_false {α : Type} {x : Traced α} {pending : List Path} :
    x.dependsOn pending = false ↔ Unreached pending x.sightings := by
  rw [dependsOn, List.any_eq_false]
  refine forall₂_congr fun s _ => ?_
  rw [List.any_eq_true]
  exact ⟨fun h q hq hs => h ⟨q, hq, hs⟩, fun h ⟨q, hq, hs⟩ => h q hq hs⟩

namespace Traced.Steady

variable {α β γ δ : Type} {pending : List Path} {R : α → β → Prop} {S : γ → δ → Prop}

theorem ofExcept {o : Except Fault α} {o' : Except Fault β} (h : Matches R o o') :
    Steady pending R (Traced.ofExcept o) (Traced.ofExcept o') :=
  fun _ => h

theorem pure {a : α} {b : β} (h : R a b) :
    Steady pending R (Pure.pure a : Traced α) (Pure.pure b : Traced β) :=
  ofExcept (.ok h)

theorem bind {x : Traced α} {y : Traced β} {f : α → Traced γ} {g : β → Traced δ}
    (h : Steady pending R x y) (hf : ∀ a b, R a b → Steady pending S (f a) (g b)) :
    Steady pending S (x >>= f) (y >>= g) := by
  show Steady pending S (Traced.bind x f) (Traced.bind y g)
  intro hunreached
  rcases x with ⟨x, seen⟩
  rcases y with ⟨y, seen'⟩
  have hsplit : Unreached pending seen := by
    rcases x with fault | a
    · exact hunreached
    · exact fun s hs => hunreached s (List.mem_append_left _ hs)
  cases h hsplit with
  | @ok a b hab =>
    exact hf a b hab fun s hs => hunreached s (List.mem_append_right _ hs)
  | error fault => exact .error fault

/-- After a computation that gives the very same, the rest goes on with the same. -/
theorem bind_eq {x y : Traced α} {f : α → Traced γ} {g : α → Traced δ}
    (h : Steady pending Eq x y) (hf : ∀ a, Steady pending S (f a) (g a)) :
    Steady pending S (x >>= f) (y >>= g) :=
  h.bind fun a _ hab => hab ▸ hf a

/-- What is seen is known not to depend on any of the places from then on. -/
theorem see {seen seen' : List Sighting} {x : Traced γ} {y : Traced δ}
    (h : Unreached pending seen → Steady pending S x y) :
    Steady pending S (Traced.see seen >>= fun _ => x) (Traced.see seen' >>= fun _ => y) := by
  intro hunreached
  refine h (fun s hs => ?_) fun s hs => ?_
  · exact hunreached s (List.mem_append_left _ hs)
  · exact hunreached s (List.mem_append_right _ hs)

theorem refl (pending : List Path) (x : Traced α) : Steady pending Eq x x := by
  intro _
  rcases x with ⟨fault | a, seen⟩
  · exact .error fault
  · exact .ok rfl

theorem ofExcept_refl (pending : List Path) (o : Except Fault α) :
    Steady pending Eq (Traced.ofExcept o) (Traced.ofExcept o) :=
  refl pending _

theorem ite {b : Bool} {x x' : Traced γ} {y y' : Traced δ} (h : Steady pending S x y)
    (h' : Steady pending S x' y') :
    Steady pending S (if b then x else x') (if b then y else y') := by
  rcases b
  · exact h'
  · exact h

end Traced.Steady

open Traced (Steady)

/-! ### Going through items -/

section Items

variable {pending scope : List Path}

/-- Whether two items at one position agree, and none of the places counts for them. -/
def ItemAgrees (scope : List Path) (p p' : Node × Nat) : Prop :=
  Node.Agrees scope p.1 p'.1 ∧ ¬ p.1.path.LiesIn scope ∧ p.2 = p'.2

theorem itemAgrees_zipIdx {ns ns' : List Node} (h : List.Forall₂ (Node.Agrees scope) ns ns')
    (hclear : Clear scope ns) (k : Nat) :
    List.Forall₂ (ItemAgrees scope) (ns.zipIdx k) (ns'.zipIdx k) := by
  induction h generalizing k with
  | nil => exact .nil
  | cons hn _ ih =>
    rw [List.zipIdx_cons, List.zipIdx_cons]
    refine .cons ⟨hn, hclear _ List.mem_cons_self, rfl⟩ (ih (fun m hm => ?_) (k + 1))
    exact hclear m (List.mem_cons_of_mem _ hm)

variable {items items' : List (Node × Nat)}

theorem filterItems_steady {test test' : Node × Nat → Traced Bool}
    (htest : ∀ p p', ItemAgrees scope p p' → Steady pending Eq (test p) (test' p'))
    (h : List.Forall₂ (ItemAgrees scope) items items') :
    Steady pending (NodesAgree scope) (filterItems test items) (filterItems test' items') := by
  induction h with
  | nil => exact .pure .nil
  | cons hp _ ih =>
    rw [filterItems, filterItems]
    refine (htest _ _ hp).bind_eq fun passes => ih.bind fun rest rest' hrest => ?_
    rcases passes
    · exact .pure hrest
    · exact .pure (.cons hp.1 hrest)

theorem projectItems_steady {project project' : Node × Nat → Traced Value}
    (hproject : ∀ p p', ItemAgrees scope p p' →
      Steady pending Eq (project p) (project' p'))
    (h : List.Forall₂ (ItemAgrees scope) items items') :
    Steady pending Eq (projectItems project items) (projectItems project' items') := by
  induction h with
  | nil => exact .pure rfl
  | cons hp _ ih =>
    rw [projectItems, projectItems]
    refine (hproject _ _ hp).bind_eq fun v => ih.bind_eq fun rest => ?_
    rw [hp.1.path_eq hp.2.1]
    exact .pure rfl

theorem findItem_steady {test test' : Node × Nat → Traced Bool}
    (htest : ∀ p p', ItemAgrees scope p p' → Steady pending Eq (test p) (test' p'))
    (h : List.Forall₂ (ItemAgrees scope) items items') :
    Steady pending (fun found found' => View.Agrees scope (.single found) (.single found'))
      (findItem test items) (findItem test' items') := by
  induction h with
  | nil => exact .pure .absent
  | cons hp _ ih =>
    rw [findItem, findItem]
    refine (htest _ _ hp).bind_eq fun passes => ?_
    rcases passes
    · exact ih
    · exact .pure (.single hp.1)

theorem testOf_steady {valueOf valueOf' : Node × Nat → Traced Operand} {p p' : Node × Nat}
    (h : Steady pending Eq (valueOf p) (valueOf' p')) :
    Steady pending Eq (testOf valueOf p) (testOf valueOf' p') :=
  h.bind_eq fun a => .ofExcept_refl pending a.boolean

theorem LambdaSelector.select_steady {valueOf valueOf' : Node × Nat → Traced Operand}
    (hvalue : ∀ p p', ItemAgrees scope p p' →
      Steady pending Eq (valueOf p) (valueOf' p'))
    {ns ns' : List Node} (h : NodesAgree scope ns ns') (hclear : Clear scope ns)
    (selector : LambdaSelector) :
    Steady pending (View.Agrees scope) (selector.select valueOf ns)
      (selector.select valueOf' ns') := by
  have hzip := itemAgrees_zipIdx (h.forall₂ hclear) hclear 0
  have htest : ∀ p p', ItemAgrees scope p p' →
      Steady pending Eq (testOf valueOf p) (testOf valueOf' p') :=
    fun p p' hp => testOf_steady (hvalue p p' hp)
  cases selector with
  | filter =>
    refine (filterItems_steady htest hzip).bind fun chosen chosen' hchosen => ?_
    exact .pure (.many hchosen)
  | project =>
    refine (projectItems_steady ?_ hzip).bind_eq fun projected => .pure (.refl scope _)
    exact fun p p' hp => (hvalue p p' hp).bind_eq fun a => .pure rfl
  | first =>
    exact (findItem_steady htest hzip).bind fun found found' hfound => .pure hfound
  | last =>
    refine (findItem_steady htest ?_).bind fun found found' hfound => .pure hfound
    exact List.forall₂_reverse_iff.2 hzip

theorem collect_steady {valueOf valueOf' : Node × Nat → Traced Operand}
    (hvalue : ∀ p, Steady pending Eq (valueOf p) (valueOf' p)) (tally : Tally)
    (items : List (Node × Nat)) :
    Steady pending Eq (tally.collect valueOf items) (tally.collect valueOf' items) := by
  induction items generalizing tally with
  | nil => exact .pure rfl
  | cons p items ih =>
    rw [Tally.collect, Tally.collect]
    refine (hvalue p).bind_eq fun a => (Steady.ofExcept_refl pending _).bind_eq fun next => ?_
    rcases next with ⟨next, goesOn⟩
    exact .ite (ih next) (.pure rfl)

theorem runWith_steady {valueOf valueOf' : Node × Nat → Traced Operand}
    (hvalue : ∀ p, Steady pending Eq (valueOf p) (valueOf' p)) (a : Aggregate)
    (ns : List Node) : Steady pending Eq (a.runWith valueOf ns) (a.runWith valueOf' ns) :=
  (collect_steady hvalue _ _).bind_eq fun _ => .pure rfl

end Items

/-! ### Contexts -/

/-- Whether two bindings are of one lambda and one position, with items that agree. -/
structure Binding.Agrees (pending : List Path) (b b' : Binding) : Prop where
  lambda_eq : b'.lambda = b.lambda
  index_eq : b'.index = b.index
  item : Node.Agrees pending b.item b'.item

/-- Whether two contexts differ only in what lies in the places of `pending`. -/
structure Context.Agrees (pending : List Path) (c c' : Context) : Prop where
  id_eq : c'.document.id = c.document.id
  root : Node.Agrees pending c.document.root c'.document.root
  ancestors_eq : c'.document.ancestors = c.document.ancestors
  options_eq : c'.options = c.options
  now_eq : c'.now = c.now
  bindings : List.Forall₂ (Binding.Agrees pending) c.bindings c'.bindings

/-- The places that count for a lookup. For one that is not tracked there are none. -/
def scopeOf (pending : List Path) (isTracked : Bool) : List Path :=
  if isTracked then pending else []

section Scope

variable {pending : List Path} {isTracked : Bool}

theorem unreached_nil (seen : List Sighting) : Unreached [] seen := by
  intro s _ q hq
  simp at hq

theorem unreached_scopeOf {seen : List Sighting}
    (h : Unreached pending (if isTracked then seen else [])) :
    Unreached (scopeOf pending isTracked) seen := by
  rcases isTracked
  · exact unreached_nil seen
  · exact h

theorem clear_scopeOf {ns : List Node} (h : Unreached pending (unnoticed isTracked ns false)) :
    Clear (scopeOf pending isTracked) ns :=
  Unreached.clear (unreached_scopeOf h)

theorem unreached_surveyed {ns : List Node} {a : Arrangement}
    (h : Unreached pending (a.surveyed isTracked ns)) :
    Unreached (scopeOf pending isTracked) (a.surveyed true ns) := by
  rcases isTracked
  · exact unreached_nil _
  · exact h

theorem not_meets_nil (p : Path) : ¬ p.Meets [] := by
  rintro ⟨q, hq, _⟩
  simp at hq

theorem not_meets_of_sightings {view : View} (h : Unreached pending view.toValue.sightings) :
    ∀ n ∈ view.nodes, ¬ n.path.Meets pending := by
  rcases view with (_ | n) | ns
  · simp [View.nodes]
  · exact Unreached.not_meets h
  · exact Unreached.not_meets h

theorem Node.Agrees.of_scopeOf {n n' : Node} (h : Node.Agrees (scopeOf pending isTracked) n n') :
    Node.Agrees pending n n' := by
  rcases isTracked
  · rw [h.eq (not_meets_nil n.path)]
    exact .same n
  · exact h

end Scope

namespace Context.Agrees

variable {pending : List Path} {c c' : Context}

theorem bind (h : c.Agrees pending c') (lambda : Nat) {item item' : Node}
    (hitem : Node.Agrees pending item item') (index : Nat) :
    (c.bind lambda item index).Agrees pending (c'.bind lambda item' index) where
  id_eq := h.id_eq
  root := h.root
  ancestors_eq := h.ancestors_eq
  options_eq := h.options_eq
  now_eq := h.now_eq
  bindings := .cons ⟨rfl, rfl, hitem⟩ h.bindings

/-- A lambda is bound in both contexts or in none. -/
theorem binding? (h : c.Agrees pending c') (lambda : Nat) :
    (c.binding? lambda = none ∧ c'.binding? lambda = none) ∨
      ∃ b b', c.binding? lambda = some b ∧ c'.binding? lambda = some b' ∧
        b.Agrees pending b' := by
  have hbindings := h.bindings
  rw [Context.binding?, Context.binding?]
  generalize c.bindings = bs at hbindings ⊢
  generalize c'.bindings = bs' at hbindings ⊢
  induction hbindings with
  | nil => exact .inl ⟨rfl, rfl⟩
  | @cons b b' bs bs' hb _ ih =>
    rw [List.find?_cons, List.find?_cons, hb.lambda_eq]
    rcases hlambda : b.lambda == lambda
    · exact ih
    · exact .inr ⟨b, b', rfl, rfl, hb⟩

end Context.Agrees

/-- Whether two values at which a lookup begins agree. -/
inductive Value.Agrees (pending : List Path) : Value → Value → Prop
  | same (v : Value) : Value.Agrees pending v v
  | node {n n' : Node} : Node.Agrees pending n n' → Value.Agrees pending (.node n) (.node n')
  | unsettled {n : Node} (v' : Value) : n.path.LiesIn pending → Value.Agrees pending (.node n) v'

namespace Value.Agrees

variable {pending : List Path} {v v' : Value}

theorem ofView {found found' : Option Node}
    (h : View.Agrees pending (.single found) (.single found')) :
    Value.Agrees pending (.ofNode? found) (.ofNode? found') := by
  cases h with
  | absent => exact .same _
  | single hn => exact .node hn
  | unsettled _ hlies => exact .unsettled _ hlies

theorem view (h : Value.Agrees pending v v') (path : Path) :
    View.Agrees pending (.ofValue path v) (.ofValue path v') := by
  cases h with
  | same _ => exact .refl pending _
  | node hn => exact .single hn
  | unsettled _ hlies => exact .unsettled _ hlies

theorem eq (h : Value.Agrees pending v v') (hunreached : Unreached pending v.sightings) :
    v' = v := by
  cases h with
  | same _ => rfl
  | @node n n' hn =>
    have hmeets : ∀ m ∈ [n], ¬ m.path.Meets pending := Unreached.not_meets hunreached
    rw [hn.eq (hmeets n List.mem_cons_self)]
  | @unsettled n v' hlies =>
    have hmeets : ∀ m ∈ [n], ¬ m.path.Meets pending := Unreached.not_meets hunreached
    exact absurd hlies.meets (hmeets n List.mem_cons_self)

end Value.Agrees

section Start

variable {pending : List Path} {c c' : Context}

theorem firstMember?_agrees (h : c.Agrees pending c') (name : String) (pages : List Page)
    (hroot : ¬ c.document.root.path.LiesIn pending) :
    View.Agrees pending (.single (Page.firstMember? name (c.document.toPage :: pages)))
      (.single (Page.firstMember? name (c'.document.toPage :: pages))) := by
  have hmember := h.root.member? hroot name
  rw [Page.firstMember?, Page.firstMember?, List.findSome?_cons, List.findSome?_cons]
  generalize hfound : c.document.root.member? name = found at hmember
  generalize hfound' : c'.document.root.member? name = found' at hmember
  cases hmember with
  | absent => exact .refl pending _
  | single hn => exact .single hn
  | unsettled _ hlies => exact .unsettled _ hlies

/-- Lookups begin with values that agree. -/
theorem resolve_agrees (h : c.Agrees pending c') (start : Start)
    (hclear : Clear pending (start.searched c)) :
    Matches (Value.Agrees pending) (start.resolve c) (start.resolve c') := by
  cases start with
  | property name scope =>
    cases scope with
    | all =>
      have hroot := hclear _ List.mem_cons_self
      have hfirst := firstMember?_agrees h name c.document.ancestors hroot
      rw [Start.resolve, Start.resolve, Scope.pages, Scope.pages, Document.pages, Document.pages,
        h.ancestors_eq]
      exact .ok (.ofView hfirst)
    | own =>
      have hroot := hclear _ List.mem_cons_self
      exact .ok (.ofView (firstMember?_agrees h name [] hroot))
    | inherited =>
      rw [Start.resolve, Start.resolve, Scope.pages, Scope.pages, h.ancestors_eq]
      exact .ok (.same _)
  | this => exact .ok (.node h.root)
  | parent =>
    rw [Start.resolve, Start.resolve, h.ancestors_eq]
    exact .ok (.same _)
  | parameter lambda name role =>
    rw [Start.resolve, Start.resolve]
    rcases h.binding? lambda with ⟨hb, hb'⟩ | ⟨b, b', hb, hb', hagrees⟩
    · rw [hb, hb']
      exact .error _
    · rw [hb, hb']
      cases role with
      | item => exact .ok (.node hagrees.item)
      | index =>
        simp only
        rw [hagrees.index_eq]
        exact .ok (.same _)

end Start

/-! ### Formulas -/

mutual

/-- A formula has the same value in contexts that agree, unless it depends on a place in which they
differ. -/
theorem evaluate_steady {pending : List Path} {c c' : Context} (h : c.Agrees pending c')
    (f : Formula) : Steady pending Eq (evaluate c f) (evaluate c' f) := by
  match f with
  | .constant v _ =>
    rw [evaluate, evaluate]
    exact .pure rfl
  | .apply function operand _ =>
    rw [evaluate, evaluate, h.options_eq]
    exact (evaluate_steady h operand).bind_eq fun v => .ofExcept_refl pending _
  | .assert operand position =>
    rw [evaluate, evaluate]
    exact (evaluate_steady h operand).bind_eq fun v => .ofExcept_refl pending _
  | .binary o left right position =>
    rw [evaluate, evaluate, h.options_eq]
    exact (evaluate_steady h left).bind_eq fun a =>
      (evaluate_steady h right).bind_eq fun b => .ofExcept_refl pending _
  | .both left right _ =>
    rw [evaluate, evaluate]
    refine (evaluate_steady h left).bind_eq fun a =>
      (Steady.ofExcept_refl pending _).bind_eq fun holds => .ite ?_ (.pure rfl)
    exact (evaluate_steady h right).bind_eq fun b =>
      (Steady.ofExcept_refl pending _).bind_eq fun holds => .pure rfl
  | .either left right _ =>
    rw [evaluate, evaluate]
    refine (evaluate_steady h left).bind_eq fun a =>
      (Steady.ofExcept_refl pending _).bind_eq fun holds => .ite (.pure rfl) ?_
    exact (evaluate_steady h right).bind_eq fun b =>
      (Steady.ofExcept_refl pending _).bind_eq fun holds => .pure rfl
  | .fallback value alternative _ =>
    rw [evaluate, evaluate, h.options_eq]
    refine (evaluate_steady h value).bind_eq fun v => .ite (evaluate_steady h alternative) ?_
    rcases alternative.kind.type? with _ | type
    · exact .pure rfl
    · simp only
      rcases v.convert? c.options type with _ | converted
      · exact evaluate_steady h alternative
      · exact .pure rfl
  | .test t whole part _ =>
    rw [evaluate, evaluate]
    exact (evaluate_steady h whole).bind_eq fun a =>
      (Steady.ofExcept_refl pending _).bind_eq fun a =>
        (evaluate_steady h part).bind_eq fun b =>
          (Steady.ofExcept_refl pending _).bind_eq fun b => .pure rfl
  | .concatenate parts _ =>
    rw [evaluate, evaluate]
    exact (evaluateTexts_steady h parts).bind_eq fun texts => .pure rfl
  | .choose condition yes no _ =>
    rw [evaluate, evaluate]
    exact (evaluate_steady h condition).bind_eq fun v =>
      (Steady.ofExcept_refl pending _).bind_eq fun holds =>
        .ite (evaluate_steady h yes) (evaluate_steady h no)
  | .now _ =>
    rw [evaluate, evaluate, h.now_eq]
    exact .pure rfl
  | .aggregate a collection _ =>
    rw [evaluate, evaluate]
    exact (evaluate_steady h collection).bind_eq fun v =>
      (Steady.ofExcept_refl pending _).bind_eq fun items => .refl pending _
  | .aggregateBy a collection lambda body _ =>
    rw [evaluate, evaluate]
    refine (evaluate_steady h collection).bind_eq fun v =>
      (Steady.ofExcept_refl pending _).bind_eq fun items => runWith_steady (fun p => ?_) a items
    exact (evaluate_steady (h.bind lambda (.same p.1) p.2) body).bind_eq fun result => .pure rfl
  | .lookup start steps _ =>
    rw [evaluate, evaluate]
    -- first the root, then what the steps pass, and in the end the whole of what was found
    refine .see fun hsearched => ?_
    have hstart := resolve_agrees h start (Unreached.clear hsearched)
    refine (Steady.ofExcept hstart).bind fun first first' hfirst => ?_
    rcases steps with _ | ⟨step, steps⟩
    · refine .see fun hseen => .pure ?_
      exact (hfirst.eq hseen).symm
    · rw [h.id_eq]
      have hsteps := evaluateSteps_steady h true (hfirst.view (.root c.document.id)) (step :: steps)
      refine hsteps.bind fun view view' hview => .see fun hseen => .pure ?_
      rw [hview.eq (not_meets_of_sightings hseen)]
  | .follow base steps _ =>
    rw [evaluate, evaluate]
    refine (evaluate_steady h base).bind_eq fun first => .ite (.pure rfl) ?_
    rw [h.id_eq]
    -- the base is the same in both contexts, so the steps begin with one and the same view
    have hsteps :=
      evaluateSteps_steady h false (.refl [] (.ofValue (.root c.document.id) first)) steps
    refine hsteps.bind fun view view' hview => .pure ?_
    rw [hview.eq fun n _ => not_meets_nil n.path]
  | .operation o arguments _ =>
    rw [evaluate, evaluate]
    exact (evaluateAs_steady h o.operandType arguments).bind_eq fun values => .pure rfl

theorem evaluateTexts_steady {pending : List Path} {c c' : Context} (h : c.Agrees pending c')
    (fs : List Formula) : Steady pending Eq (evaluateTexts c fs) (evaluateTexts c' fs) := by
  match fs with
  | [] =>
    rw [evaluateTexts, evaluateTexts]
    exact .pure rfl
  | f :: fs =>
    rw [evaluateTexts, evaluateTexts]
    exact (evaluate_steady h f).bind_eq fun v =>
      (Steady.ofExcept_refl pending _).bind_eq fun s =>
        (evaluateTexts_steady h fs).bind_eq fun rest => .pure rfl

theorem evaluateAs_steady {pending : List Path} {c c' : Context} (h : c.Agrees pending c')
    (type : ScalarType) (fs : List Formula) :
    Steady pending Eq (evaluateAs c type fs) (evaluateAs c' type fs) := by
  match fs with
  | [] =>
    rw [evaluateAs, evaluateAs]
    exact .pure rfl
  | f :: fs =>
    rw [evaluateAs, evaluateAs, h.options_eq]
    exact (evaluate_steady h f).bind_eq fun v =>
      (Steady.ofExcept_refl pending _).bind_eq fun v =>
        (evaluateAs_steady h type fs).bind_eq fun rest => .pure rfl

theorem evaluateSteps_steady {pending : List Path} {c c' : Context} (h : c.Agrees pending c')
    (isTracked : Bool) {view view' : View}
    (hview : View.Agrees (scopeOf pending isTracked) view view') (steps : List Step) :
    Steady pending (View.Agrees (scopeOf pending isTracked)) (evaluateSteps c isTracked view steps)
      (evaluateSteps c' isTracked view' steps) := by
  match steps with
  | [] =>
    rw [evaluateSteps, evaluateSteps]
    exact .pure hview
  | step :: steps =>
    rw [evaluateSteps, evaluateSteps]
    refine .see fun hseen => ?_
    have hnodes := Unreached.clear (unreached_scopeOf hseen)
    exact (evaluateStep_steady h isTracked hview hnodes step).bind fun next next' hnext =>
      evaluateSteps_steady h isTracked hnext steps

theorem evaluateStep_steady {pending : List Path} {c c' : Context} (h : c.Agrees pending c')
    (isTracked : Bool) {view view' : View}
    (hview : View.Agrees (scopeOf pending isTracked) view view')
    (hnodes : Clear (scopeOf pending isTracked) view.nodes) (step : Step) :
    Steady pending (View.Agrees (scopeOf pending isTracked)) (evaluateStep c isTracked view step)
      (evaluateStep c' isTracked view' step) := by
  match step with
  | .member name =>
    rw [evaluateStep, evaluateStep]
    refine .see fun hsearched => .pure ?_
    exact hview.member name hnodes (clear_scopeOf hsearched)
  | .index indexes =>
    rw [evaluateStep, evaluateStep]
    exact evaluateIndexes_steady h isTracked hview indexes
  | .at indexes position =>
    rw [evaluateStep, evaluateStep]
    obtain ⟨items, items', hitems, hitems', hagree⟩ := hview.exists_items hnodes "At" position
    rw [hitems, hitems']
    refine (Steady.ofExcept (.ok hagree)).bind fun items items' hagree => ?_
    exact (evaluateAt_steady h isTracked hagree .absent indexes).bind fun found found' hfound =>
      .pure hfound
  | .arrange arrangement position =>
    rw [evaluateStep, evaluateStep]
    obtain ⟨items, items', hitems, hitems', hagree⟩ :=
      hview.exists_items hnodes arrangement.name position
    rw [hitems, hitems']
    refine (Steady.ofExcept (.ok hagree)).bind fun items items' hagree => .see fun hsurveyed => ?_
    exact .pure <| hagree.select arrangement (unreached_surveyed hsurveyed)
  | .through selector lambda body position =>
    rw [evaluateStep, evaluateStep]
    obtain ⟨items, items', hitems, hitems', hagree⟩ :=
      hview.exists_items hnodes selector.name position
    rw [hitems, hitems']
    refine (Steady.ofExcept (.ok hagree)).bind fun items items' hagree => .see fun hseen => ?_
    refine LambdaSelector.select_steady (fun p p' hp => ?_) hagree (clear_scopeOf hseen) selector
    obtain ⟨hitem, _, hindex⟩ := hp
    rw [← hindex]
    exact (evaluate_steady (h.bind lambda hitem.of_scopeOf p.2) body).bind_eq fun result =>
      .pure rfl

theorem evaluateIndexes_steady {pending : List Path} {c c' : Context} (h : c.Agrees pending c')
    (isTracked : Bool) {view view' : View}
    (hview : View.Agrees (scopeOf pending isTracked) view view') (fs : List Formula) :
    Steady pending (View.Agrees (scopeOf pending isTracked)) (evaluateIndexes c isTracked view fs)
      (evaluateIndexes c' isTracked view' fs) := by
  match fs with
  | [] =>
    rw [evaluateIndexes, evaluateIndexes]
    exact .pure hview
  | f :: fs =>
    rw [evaluateIndexes, evaluateIndexes]
    refine (evaluate_steady h f).bind_eq fun v =>
      (Steady.ofExcept_refl pending _).bind_eq fun index => .see fun hseen => ?_
    refine evaluateIndexes_steady h isTracked ?_ fs
    rcases index with _ | i
    · exact .absent
    · exact hview.item i (clear_scopeOf hseen)

theorem evaluateAt_steady {pending : List Path} {c c' : Context} (h : c.Agrees pending c')
    (isTracked : Bool) {items items' : List Node}
    (hitems : NodesAgree (scopeOf pending isTracked) items items') {found found' : Option Node}
    (hfound : View.Agrees (scopeOf pending isTracked) (.single found) (.single found'))
    (fs : List Formula) :
    Steady pending
      (fun found found' => View.Agrees (scopeOf pending isTracked) (.single found) (.single found'))
      (evaluateAt c isTracked items found fs) (evaluateAt c' isTracked items' found' fs) := by
  match fs with
  | [] =>
    rw [evaluateAt, evaluateAt]
    exact .pure hfound
  | f :: fs =>
    rw [evaluateAt_cons, evaluateAt_cons]
    refine (evaluate_steady h f).bind_eq fun v =>
      (Steady.ofExcept_refl pending _).bind_eq fun index => .see fun hseen => ?_
    rcases index with _ | i
    · exact .pure .absent
    · -- the items before this one are seen as well, so the positions count the same items
      have hclear : Clear (scopeOf pending isTracked) (items.take (i + 1)) := fun n hn =>
        clear_scopeOf hseen n (List.mem_append_right _ hn)
      have hitem := hitems.getElem? i hclear
      rw [Option.bind_some, Option.bind_some]
      generalize hfound : items[i]? = item at hitem
      generalize items'[i]? = item' at hitem
      have hmem : ∀ n, item = some n → n ∈ items.take (i + 1) := by
        rintro n rfl
        rw [← List.getElem?_take_of_lt (Nat.lt_succ_self i)] at hfound
        exact List.mem_of_getElem? hfound
      cases hitem with
      | absent => exact .pure .absent
      | @single n n' hn =>
        have hlies := hclear n (hmem n rfl)
        exact evaluateAt_steady h isTracked (hn.items hlies) (.single hn) fs
      | unsettled _ hlies => exact absurd hlies (hclear _ (hmem _ rfl))

end

/-! ### Actions -/

section Actions

variable {pending : List Path} {c c' : Context}

theorem joinParts_steady (h : c.Agrees pending c') (parts : List Part) :
    Steady pending Eq (joinParts c parts) (joinParts c' parts) := by
  induction parts with
  | nil => exact .pure rfl
  | cons part parts ih =>
    cases part with
    | text content =>
      rw [joinParts, joinParts]
      exact ih.bind_eq fun rest => .pure rfl
    | formula f =>
      rw [joinParts, joinParts]
      exact (evaluate_steady h f).bind_eq fun v =>
        (Steady.ofExcept_refl pending _).bind_eq fun s => ih.bind_eq fun rest => .pure rfl

/-- An action gives the same in contexts that agree, unless it depends on a place in which they
differ. -/
theorem compute_steady (h : c.Agrees pending c') (action : Action) :
    Steady pending Eq (action.compute c) (action.compute c') := by
  cases action with
  | copyFields f => exact evaluate_steady h f
  | merge f => exact evaluate_steady h f
  | value f => exact evaluate_steady h f
  | interpolate parts => exact (joinParts_steady h parts).bind_eq fun texts => .pure rfl

/-- What does not depend on a place in which two contexts differ has one outcome in both. -/
theorem outcome_eq_of_steady {α : Type} {x y : Traced α} (h : Steady pending Eq x y)
    (hunreached : Unreached pending x.sightings) : y.outcome = x.outcome := by
  rcases x with ⟨x, seen⟩
  rcases y with ⟨y, seen'⟩
  cases h hunreached with
  | ok hab => rw [hab]
  | error fault => rfl

end Actions

end DocQuery
