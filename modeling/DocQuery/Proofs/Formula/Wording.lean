/-
What the common forms of expressions are compiled to.

* `Vocabulary.Extends` — a vocabulary in which the words of another one keep their meaning;
* `Expr.selecting`, `Expr.taking` — a collection with a selector or a lambda selector behind it;
* `compile_group`, `compile_aggregateBy`, `link_through` — the formula of a form, from those of its
  parts, and so for the other forms;
* `Chain.outcome_extend` — what the next step of a lookup comes to.

Design notes: the forms have all their nodes in one place, since they are compared with the trees of
texts by their shapes alone. Each equation also holds where a part has no formula, so that two forms
with the same parts fail at the same part.
-/
import DocQuery.Proofs.Formula.Marking
import DocQuery.Proofs.Formula.Relocating
import DocQuery.Proofs.Formula.Scoping

namespace DocQuery

/-! ### Words that keep their meaning -/

/-- Whether all words of `base` mean the same in `v`. -/
structure Vocabulary.Extends (v base : Vocabulary) : Prop where
  constants : ∀ name x, base.constants.lookup name = some x → v.constants.lookup name = some x
  functions : ∀ name m, base.functions.lookup name = some m → v.functions.lookup name = some m
  selectors : ∀ name m, base.selectors.lookup name = some m → v.selectors.lookup name = some m
  binary : ∀ name m, base.binary.lookup name = some m → v.binary.lookup name = some m
  before : ∀ name m, base.before.lookup name = some m → v.before.lookup name = some m
  after : ∀ name m, base.after.lookup name = some m → v.after.lookup name = some m

theorem Vocabulary.extends_self (v : Vocabulary) : v.Extends v :=
  ⟨fun _ _ h => h, fun _ _ h => h, fun _ _ h => h, fun _ _ h => h, fun _ _ h => h, fun _ _ h => h⟩

/-- A word that is put in front of a table hides no other word. -/
theorem Vocabulary.lookup_cons_of_fresh {α : Type} {word : String} {table : List (String × α)}
    (hfresh : table.lookup word = none) (meaning : α) (name : String) (m : α)
    (h : table.lookup name = some m) : ((word, meaning) :: table).lookup name = some m := by
  rw [List.lookup_cons]
  split
  · rename_i hname
    rw [beq_iff_eq.1 hname, hfresh] at h
    cases h
  · exact h

theorem Vocabulary.extended_extends : Dialect.extendedVocabulary.Extends .standard where
  constants := lookup_cons_of_fresh rfl _
  functions := lookup_cons_of_fresh rfl _
  selectors := lookup_cons_of_fresh rfl _
  binary name m h := lookup_cons_of_fresh rfl _ name m (lookup_cons_of_fresh rfl _ name m h)
  before := lookup_cons_of_fresh rfl _
  after := lookup_cons_of_fresh rfl _

/-! ### Formulas of forms -/

namespace Expr

/-- A collection with a selector behind it. -/
def selecting (dot : Operator) (collection : Expr) (selector : String)
    (arguments : List Expr) : Expr :=
  .binary dot collection (.call selector arguments .start) .start

/-- A lambda with one parameter. -/
def forEach (x : String) (body : Expr) : Expr :=
  .lambda [⟨x, .start⟩] body .start

/-- A collection with a selector behind it that goes through the items with a lambda. -/
def taking (dot : Operator) (collection : Expr) (selector x : String) (body : Expr) : Expr :=
  collection.selecting dot selector [forEach x body]

end Expr

section Forms

variable (s : Naming)

theorem compile_group (inner : Expr) (p : Position) :
    compile s (.group inner p) = compile s inner := by
  show ((compile s inner).map (Chain.ofFormula p)).map Chain.formula = _
  rcases compile s inner with fault | f <;> rfl

theorem compile_before {o : Operator} {meaning : OperandMeaning} (hpath : o.name ≠ pathOperator)
    (hmeaning : s.vocabulary.before.lookup o.name = some meaning) (operand : Expr) (p : Position) :
    compile s (.before o operand p) = (compile s operand).map (meaning.build p) := by
  have hloose : (Expr.before o operand p).isLoosePath = false := by
    rw [Expr.isLoosePath, beq_eq_false_iff_ne]
    exact hpath
  rw [compile, sealChain, hloose, link]
  simp only [if_neg hpath, hmeaning]
  rw [← compile]
  rcases compile s operand with fault | f <;> rfl

theorem compile_binary {o : Operator} {meaning : BinaryMeaning} (hpath : o.name ≠ pathOperator)
    (hmeaning : s.vocabulary.binary.lookup o.name = some meaning) (left right : Expr)
    (p : Position) :
    compile s (.binary o left right p) = (do
      let f ← compile s left
      let g ← compile s right
      .ok (meaning.build p f g)) := by
  show Except.map Chain.formula _ = _
  rw [link]
  simp only [if_neg hpath, hmeaning]
  rw [← compile, ← compile]
  rcases compile s left with fault | f
  · rfl
  · rcases compile s right with fault | g <;> rfl

theorem compile_apply {name : String} {function : UnaryFunction}
    (hmeaning : s.vocabulary.functions.lookup name = some (.unary function)) (operand : Expr)
    (p : Position) :
    compile s (.call name [operand] p) = (compile s operand).map (.apply function · p) := by
  have hknown : (FunctionMeaning.unary function).isKnownWith [operand].length := rfl
  show Except.map Chain.formula _ = _
  rw [link]
  simp only [hmeaning]
  rw [if_pos hknown, compileAll, compileAll, ← compile]
  rcases compile s operand with fault | f <;> rfl

theorem compile_aggregate {name : String} {a : Aggregate}
    (hmeaning : s.vocabulary.functions.lookup name = some (.aggregate a))
    (hadmits : a.arity.admits 1) (collection : Expr) (p : Position) :
    compile s (.call name [collection] p) = (compile s collection).map (.aggregate a · p) := by
  show Except.map Chain.formula _ = _
  rw [link]
  simp only [hmeaning, List.length_cons, List.length_nil, Nat.zero_add, hadmits, if_true]
  rw [← compile]
  rcases compile s collection with fault | f <;> rfl

theorem compile_aggregateBy {name : String} {a : Aggregate}
    (hmeaning : s.vocabulary.functions.lookup name = some (.aggregate a)) (collection lambda : Expr)
    (p : Position) :
    compile s (.call name [collection, lambda] p) = (do
      let f ← compile s collection
      let body ← compileLambda s name lambda
      .ok (.aggregateBy a f s.lambdas.length body p)) := by
  have hadmits : a.arity.admits 2 := by cases a <;> rfl
  show Except.map Chain.formula _ = _
  rw [link]
  simp only [hmeaning, List.length_cons, List.length_nil, hadmits, if_true]
  rw [← compile]
  rcases compile s collection with fault | f
  · rfl
  · rcases compileLambda s name lambda with fault | body <;> rfl

theorem compileLambda_forEach (function x : String) (body : Expr) :
    compileLambda s function (.forEach x body) = compile (s.enter [x]) body := by
  rw [Expr.forEach, compileLambda]
  rfl

/-- A lambda has the same formula in whatever function it stands. -/
theorem compileLambda_eq_ok_of {function : String} {lambda : Expr} {body : Formula}
    (h : compileLambda s function lambda = .ok body) (other : String) :
    compileLambda s other lambda = .ok body := by
  cases lambda with
  | lambda parameters e p =>
    rw [compileLambda] at h ⊢
    split at h
    · cases h
    · rename_i hcount
      rw [if_neg hcount]
      exact h
  | _ => cases h

/-- A chain is compiled from left to right. -/
theorem link_path {dot : Operator} (hdot : dot.name = pathOperator) (before : Option Chain)
    (left right : Expr) (p : Position) :
    link s before (.binary dot left right p) = (do
      let chain ← link s before left
      link s (some chain) right) := by
  rw [link.eq_def]
  simp only [if_pos hdot]

theorem link_lambda {name : String} {selector : LambdaSelector}
    (hmeaning : s.vocabulary.selectors.lookup name = some (.lambda selector)) (chain : Chain)
    (lambda : Expr) (p : Position) :
    link s (some chain) (.call name [lambda] p) =
      (compileLambda s name lambda).map fun f =>
        chain.extend [.through selector s.lambdas.length f p] := by
  rw [link]
  simp only [hmeaning]
  rcases compileLambda s name lambda with fault | f <;> rfl

theorem link_through {name : String} {selector : LambdaSelector}
    (hmeaning : s.vocabulary.selectors.lookup name = some (.lambda selector)) (chain : Chain)
    (x : String) (body : Expr) (p : Position) :
    link s (some chain) (.call name [.forEach x body] p) =
      (compile (s.enter [x]) body).map fun f =>
        chain.extend [.through selector s.lambdas.length f p] := by
  rw [link_lambda s hmeaning, compileLambda_forEach]

theorem link_taking {dot : Operator} (hdot : dot.name = pathOperator) {name : String}
    {selector : LambdaSelector}
    (hmeaning : s.vocabulary.selectors.lookup name = some (.lambda selector))
    (before : Option Chain) (collection : Expr) (x : String) (body : Expr) :
    link s before (collection.taking dot name x body) = (do
      let chain ← link s before collection
      let f ← compile (s.enter [x]) body
      .ok (chain.extend [.through selector s.lambdas.length f .start])) := by
  rw [Expr.taking, Expr.selecting, link_path s hdot]
  refine bind_congr fun chain => ?_
  rw [link_through s hmeaning]
  rcases compile (s.enter [x]) body with fault | f <;> rfl

theorem link_arrange {name : String} {arrangement : Arrangement}
    (hmeaning : s.vocabulary.selectors.lookup name = some (.arrangement arrangement))
    (chain : Chain) (p : Position) :
    link s (some chain) (.call name [] p) = .ok (chain.extend [.arrange arrangement p]) := by
  rw [link]
  simp only [hmeaning]

end Forms

/-! ### Outcomes of forms -/

namespace Traced

variable {α β : Type}

theorem outcome_bind (x : Traced α) (f : α → Traced β) :
    (x >>= f).outcome = x.outcome >>= fun a => (f a).outcome := by
  rcases hx : x.outcome with fault | a
  · rw [bind_error hx]
    rfl
  · rw [bind_ok hx]
    rfl

theorem outcome_see (seen : List Sighting) (x : Traced α) :
    (Traced.see seen >>= fun _ => x).outcome = x.outcome :=
  rfl

end Traced

/-- Going through items with a lambda comes to what the lambda comes to for each of them. -/
theorem outcome_through (c : Context) (isTracked : Bool) (view : View) (selector : LambdaSelector)
    (lambda : Nat) (body : Formula) (p : Position) :
    (evaluateStep c isTracked view (.through selector lambda body p)).outcome = (do
      let items ← view.toValue.items selector.name p
      (selector.select (body.interpretFor c lambda) items).outcome) := by
  rw [evaluateStep, Traced.outcome_bind]
  rfl

namespace Chain

/-- What a chain comes to when it ends here. -/
def outcome (c : Context) (chain : Chain) : Except Fault Value :=
  (evaluate c chain.formula).outcome

theorem outcome_enter (c : Context) (start : Start) :
    (start.enter c).outcome =
      (start.resolve c).map (View.ofValue (.root c.document.id)) := by
  rw [Start.enter, Traced.outcome_see]
  rcases h : start.resolve c with fault | v <;> rfl

theorem outcome_lookup_nil (c : Context) (start : Start) (p : Position) :
    (evaluate c (.lookup start [] p)).outcome = start.resolve c := by
  rw [evaluate, Traced.outcome_see, Traced.outcome_bind, Traced.ofExcept]
  rcases start.resolve c with fault | v <;> rfl

/-- What a chain leads to is its value, as a lookup goes on from it. -/
theorem outcome_reach (c : Context) (chain : Chain) :
    (chain.reach c).outcome = (chain.outcome c).map (View.ofValue (.root c.document.id)) := by
  -- with steps, the value is that of the view they lead to
  have hsteps : ∀ (first : Chain) {steps : List Step}, steps ≠ [] →
      ((first.extend steps).outcome c).map (View.ofValue (.root c.document.id)) =
        (first.reach c).outcome >>= fun view =>
          (evaluateSteps c first.isTracked view steps).outcome := by
    intro first steps hne
    rw [outcome, first.evaluate_extend c hne, Traced.outcome_bind]
    rcases (first.reach c).outcome with fault | view
    · rfl
    rw [Except.ok_bind, Except.ok_bind, Traced.outcome_bind]
    rcases (evaluateSteps c first.isTracked view steps).outcome with fault | last
    · rfl
    · exact congrArg Except.ok (View.ofValue_toValue _ last)
  cases chain with
  | qualifier q p => rw [reach, outcome, formula, outcome_enter, outcome_lookup_nil]
  | lookup start steps p =>
    by_cases hne : steps = []
    · subst hne
      rw [outcome, formula, outcome_lookup_nil, ← outcome_enter, reach, Traced.outcome_bind]
      rcases (start.enter c).outcome with fault | view <;> rfl
    · have hlast := hsteps (.lookup start [] p) hne
      rw [extend, List.nil_append] at hlast
      rw [hlast, reach, reach, Traced.outcome_bind, Traced.outcome_bind, bind_assoc]
      rfl
  | follow base steps p =>
    by_cases hne : steps = []
    · subst hne
      rw [outcome, formula, reach, Traced.outcome_bind]
      rcases (evaluate c base).outcome with fault | v <;> rfl
    · have hlast := hsteps (.follow base [] p) hne
      rw [extend, List.nil_append] at hlast
      rw [hlast, reach, reach, Traced.outcome_bind, Traced.outcome_bind, bind_assoc]
      rfl

/-- A chain with one step more comes to what the step makes of its value. -/
theorem outcome_extend (c : Context) (chain : Chain) (step : Step) :
    (chain.extend [step]).outcome c = (do
      let v ← chain.outcome c
      let next ← (evaluateStep c chain.isTracked (.ofValue (.root c.document.id) v) step).outcome
      .ok next.toValue) := by
  rw [outcome, chain.evaluate_extend c (List.cons_ne_nil step []), Traced.outcome_bind,
    outcome_reach]
  rcases chain.outcome c with fault | v
  · rfl
  · simp only [Except.map, Except.ok_bind, evaluateSteps, Traced.outcome_bind, bind_assoc]
    rfl

/-- The items that a selector finds at the end of a chain. -/
def foundItems (c : Context) (chain : Chain) (function : String) (p : Position) :
    Except Fault (List Node) := do
  let v ← chain.outcome c
  (View.ofValue (.root c.document.id) v).toValue.items function p

/-- The items that a chain comes to are those that a selector finds at its end. -/
theorem foundItems_of_items {c : Context} {chain : Chain} {v : Value} {items : List Node}
    (hv : chain.outcome c = .ok v) (hitems : ∀ function p, v.items function p = .ok items)
    (function : String) (p : Position) : chain.foundItems c function p = .ok items := by
  rw [foundItems, hv, Except.ok_bind]
  cases v with
  | undefined | node | nodes => exact hitems function p
  | null | boolean | number | text | moment => cases hitems function p

theorem foundItems_of_nodes {c : Context} {chain : Chain} {ns : List Node}
    (h : chain.outcome c = .ok (.nodes ns)) (function : String) (p : Position) :
    chain.foundItems c function p = .ok ns :=
  foundItems_of_items h (fun _ _ => rfl) function p

/-- A chain that goes through items comes to what the lambda comes to for each of them. -/
theorem outcome_extend_through (c : Context) (chain : Chain) (selector : LambdaSelector)
    (lambda : Nat) (body : Formula) (p : Position) :
    (chain.extend [.through selector lambda body p]).outcome c = (do
      let items ← chain.foundItems c selector.name p
      (selector.select (body.interpretFor c lambda) items).outcome.map View.toValue) := by
  rw [outcome_extend, foundItems, bind_assoc]
  refine bind_congr fun v => ?_
  rw [outcome_through, bind_assoc]
  refine bind_congr fun items => ?_
  rcases (selector.select (body.interpretFor c lambda) items).outcome with fault | next <;> rfl

theorem outcome_extend_arrange (c : Context) (chain : Chain) (arrangement : Arrangement)
    (p : Position) :
    (chain.extend [.arrange arrangement p]).outcome c = (do
      let items ← chain.foundItems c arrangement.name p
      .ok (arrangement.select items).toValue) := by
  rw [outcome_extend, foundItems, bind_assoc]
  refine bind_congr fun v => ?_
  rw [evaluateStep, Traced.outcome_bind, Traced.ofExcept, bind_assoc]
  rfl

end Chain

/-- An expression comes to what its chain comes to, unless it is an operator of chains that has lost
an operand. -/
theorem Expr.outcome_eq_bind {e : Expr} (hloose : e.isLoosePath = false) (s : Naming)
    (c : Context) : e.outcome s c = link s none e >>= Chain.outcome c := by
  rw [outcome, compile, sealChain, hloose]
  rcases link s none e with fault | chain <;> rfl

/-- A lookup comes to what its chain comes to. -/
theorem Expr.outcome_path (s : Naming) (c : Context) (dot : Operator) (left right : Expr)
    (p : Position) :
    (Expr.binary dot left right p).outcome s c =
      link s none (.binary dot left right p) >>= Chain.outcome c :=
  outcome_eq_bind rfl s c

/-- A document with the given value, and no lambda around. -/
def Context.ofValue (v : Json) : Context :=
  ⟨⟨⟨"D", .ofJson (.root "D") v⟩, []⟩, .standard, .midnight ⟨2024, 1, 1⟩, []⟩

end DocQuery
