/-
Lookups cut in two.

* `stepsBehind`, `link_behind` — an element adds the same steps to every chain that is a value;
* `Chain.outcome_extend_congr` — what steps lead to depends only on the value of the chain;
* `prefix_can_be_grouped` — so `(p).s` and `p.s` come to the same.

Design notes: the elements of a chain add steps to what stands before them, and a chain in
parentheses is one computed value with steps behind it. Only a bare word that settles where the next
name is searched is no value before a name, so it can not be put in parentheses. Faults are compared
as they are told, since the parentheses move everything behind them.
-/
import DocQuery.Proofs.Expr.Operators
import DocQuery.Proofs.Formula.Flattening

namespace DocQuery

/-! ### Steps of elements -/

namespace Chain

/-- The steps of a chain. -/
def steps : Chain → List Step
  | qualifier _ _ => []
  | lookup _ steps _ | follow _ steps _ => steps

variable {chain : Chain}

theorem extend_extend (h : chain.isQualifier = false) (more last : List Step) :
    (chain.extend more).extend last = chain.extend (more ++ last) := by
  cases chain with
  | qualifier => cases h
  | lookup | follow => simp [extend]

theorem extend_nil (h : chain.isQualifier = false) : chain.extend [] = chain := by
  cases chain with
  | qualifier => cases h
  | lookup | follow => simp [extend]

theorem member_eq_extend_cons (h : chain.isQualifier = false) (name : String) (more : List Step) :
    chain.member name more = chain.extend (.member name :: more) := by
  cases chain with
  | qualifier => cases h
  | lookup | follow => rfl

/-- The chain that consists of the current document. -/
def ofDocument : Chain := .lookup .this [] .start

theorem steps_ofDocument_extend (more : List Step) : (ofDocument.extend more).steps = more := rfl

end Chain

section Steps

/-- The steps that an expression adds to the chain before it. -/
def stepsBehind (s : Naming) (e : Expr) : Except Fault (List Step) :=
  (link s (some .ofDocument) e).map Chain.steps

variable {s : Naming} {chain : Chain}

theorem link_call_behind (name : String)
    (arguments : List Expr) (p : Position) :
    link s (some chain) (.call name arguments p) =
      (stepsBehind s (.call name arguments p)).map fun more => chain.extend more := by
  rw [stepsBehind, link, link]
  cases hmeaning : s.vocabulary.selectors.lookup name with
  | none => rfl
  | some meaning =>
    -- the arguments decide whether there is a step, and which one
    rcases arguments with _ | ⟨first, _ | ⟨second, rest⟩⟩ <;> cases meaning <;> simp only
    all_goals first
      | rfl
      | rcases compileLambda s name first with fault | body <;> rfl
      | rcases compileAll s _ with fault | fs <;> rfl

/-- An expression adds the same steps to every chain that is a value. -/
theorem link_behind {chain : Chain} (hchain : chain.isQualifier = false) (e : Expr) :
    link s (some chain) e = (stepsBehind s e).map fun more => chain.extend more := by
  match e with
  | .name n p => exact congrArg Except.ok (Chain.member_eq_extend_cons hchain n [])
  | .text content p => exact congrArg Except.ok (Chain.member_eq_extend_cons hchain content [])
  | .number digits p | .lambda _ _ p | .group _ p => rfl
  | .index n indexes p =>
    rw [stepsBehind, link, link]
    rcases compileAll s indexes with fault | fs
    · rfl
    · exact congrArg Except.ok (Chain.member_eq_extend_cons hchain n [.index fs])
  | .before o operand p | .after o operand p =>
    rw [stepsBehind, link.eq_def, link.eq_def]
    by_cases hpath : o.name = pathOperator
    · simp only [if_pos hpath]
      exact link_behind hchain operand
    · simp only [if_neg hpath]
      rfl
  | .binary o left right p =>
    by_cases hpath : o.name = pathOperator
    · have hdocument : Chain.ofDocument.isQualifier = false := rfl
      rw [stepsBehind, link_path s hpath, link_path s hpath, link_behind hchain left,
        link_behind hdocument left]
      rcases stepsBehind s left with fault | more
      · rfl
      · -- what stands on the left leaves a chain that is a value, whichever one it was given
        show link s (some (chain.extend more)) right =
          ((link s (some (Chain.ofDocument.extend more)) right).map Chain.steps).map _
        rw [link_behind (chain.isQualifier_extend more) right,
          link_behind (Chain.ofDocument.isQualifier_extend more) right]
        rcases stepsBehind s right with fault | last
        · rfl
        · show Except.ok ((chain.extend more).extend last) =
            Except.ok (chain.extend ((Chain.ofDocument.extend more).extend last).steps)
          rw [Chain.extend_extend hchain, Chain.extend_extend hdocument,
            Chain.steps_ofDocument_extend]
    · rw [stepsBehind, link.eq_def, link.eq_def]
      simp only [if_neg hpath]
      rfl
  | .call n arguments p => exact link_call_behind n arguments p
termination_by sizeOf e

end Steps

/-! ### Values of prefixes -/

section Tracking

variable (c : Context)

/-- Whether a lookup is noticed is nothing to what it comes to. -/
theorem outcome_evaluateIndexes_tracked (isTracked : Bool) (view : View) (fs : List Formula) :
    (evaluateIndexes c isTracked view fs).outcome = (evaluateIndexes c false view fs).outcome := by
  induction fs generalizing view with
  | nil => rfl
  | cons f fs ih =>
    rw [evaluateIndexes, evaluateIndexes, Traced.outcome_bind, Traced.outcome_bind]
    refine bind_congr fun v => ?_
    rw [Traced.outcome_bind, Traced.outcome_bind]
    refine bind_congr fun index => ?_
    rw [Traced.outcome_see, Traced.outcome_see, ih]

theorem outcome_evaluateAt_tracked (isTracked : Bool) (items : List Node) (found : Option Node)
    (fs : List Formula) :
    (evaluateAt c isTracked items found fs).outcome =
      (evaluateAt c false items found fs).outcome := by
  induction fs generalizing items found with
  | nil => rfl
  | cons f fs ih =>
    rw [evaluateAt, evaluateAt, Traced.outcome_bind, Traced.outcome_bind]
    refine bind_congr fun v => ?_
    rw [Traced.outcome_bind, Traced.outcome_bind]
    refine bind_congr fun index => ?_
    rw [Traced.outcome_see, Traced.outcome_see]
    rcases index.bind fun i => items[i]? with _ | n
    · rfl
    · exact ih ..

theorem outcome_evaluateStep_tracked (isTracked : Bool) (view : View) (step : Step) :
    (evaluateStep c isTracked view step).outcome = (evaluateStep c false view step).outcome := by
  cases step with
  | member name =>
    rw [evaluateStep, evaluateStep, Traced.outcome_see, Traced.outcome_see]
  | index fs =>
    rw [evaluateStep, evaluateStep, outcome_evaluateIndexes_tracked]
  | «at» fs p =>
    rw [evaluateStep, evaluateStep, Traced.outcome_bind, Traced.outcome_bind]
    refine bind_congr fun items => ?_
    rw [Traced.outcome_bind, Traced.outcome_bind, outcome_evaluateAt_tracked]
  | arrange arrangement p =>
    rw [evaluateStep, evaluateStep, Traced.outcome_bind, Traced.outcome_bind]
    rfl
  | through selector lambda body p =>
    rw [outcome_through, outcome_through]

theorem outcome_evaluateSteps_tracked (isTracked : Bool) (view : View) (steps : List Step) :
    (evaluateSteps c isTracked view steps).outcome =
      (evaluateSteps c false view steps).outcome := by
  induction steps generalizing view with
  | nil => rfl
  | cons step steps ih =>
    rw [evaluateSteps, evaluateSteps, Traced.outcome_see, Traced.outcome_see, Traced.outcome_bind,
      Traced.outcome_bind, outcome_evaluateStep_tracked]
    exact bind_congr fun next => ih next

end Tracking

namespace Chain

/-- What steps lead to depends only on the value of the chain before them. -/
theorem outcome_extend_congr {c : Context} {chain chain' : Chain} (h : chain.isQualifier = false)
    (h' : chain'.isQualifier = false) (hvalue : chain.outcome c = chain'.outcome c)
    (more : List Step) : (chain.extend more).outcome c = (chain'.extend more).outcome c := by
  by_cases hne : more = []
  · -- without steps nothing goes on from the value, so the chains are compared as they are
    rw [hne, extend_nil h, extend_nil h', hvalue]
  · rw [outcome, outcome, evaluate_extend c chain hne, evaluate_extend c chain' hne,
      Traced.outcome_bind, Traced.outcome_bind, outcome_reach, outcome_reach, hvalue]
    refine bind_congr fun view => ?_
    rw [Traced.outcome_bind, Traced.outcome_bind, outcome_evaluateSteps_tracked,
      outcome_evaluateSteps_tracked c chain'.isTracked]
    rfl

end Chain

/-! ### Prefixes in parentheses -/

namespace Expr

/-- An expression with elements behind it, each of them after a point. -/
def withElements (dot : Operator) (first : Expr) (elements : List Expr) : Expr :=
  elements.foldl (fun left element => .binary dot left element .start) first

variable {dot : Operator} {first : Expr}

theorem isLoosePath_withElements (hfirst : first.isLoosePath = false) (elements : List Expr) :
    (first.withElements dot elements).isLoosePath = false := by
  induction elements generalizing first with
  | nil => exact hfirst
  | cons e es ih => exact ih rfl

/-- The operators of a prefix are among those of the whole. -/
theorem isOver_of_withElements {l : Language} {elements : List Expr} {e : Expr}
    (hshape : (first.withElements dot elements).SameShape Anywhere e) (he : e.IsOver l) :
    ∃ e', first.SameShape Anywhere e' ∧ e'.IsOver l := by
  induction elements generalizing first with
  | nil => exact ⟨e, hshape, he⟩
  | cons element elements ih =>
    obtain ⟨e', hshape, he⟩ := ih hshape
    cases hshape with
    | binary o hleft hright hp =>
      cases he with
      | binary p ho hleft' hright' => exact ⟨_, hleft, hleft'⟩

end Expr

/-- In a language whose point stands between operands, the prefix of a text is no point with only
one operand. -/
theorem Language.Parses.isLoosePath_eq {l : Language}
    (hpoint : ∀ o ∈ l.operators, o.name = pathOperator → o.fixity = .binary) {text : String}
    {origin : Position} {dot : Operator} {first : Expr} {elements : List Expr}
    (h : l.Parses text origin (first.withElements dot elements)) : first.isLoosePath = false := by
  obtain ⟨e, hparse, hshape⟩ := h
  obtain ⟨e', hshape, he⟩ := Expr.isOver_of_withElements hshape (parseExpression_over hparse)
  have hloose {o : Operator} {fixity : Fixity} (ho : l.Has fixity o) (hne : fixity ≠ .binary) :
      (o.name == pathOperator) = false :=
    beq_eq_false_iff_ne.2 fun hname => hne (ho.2 ▸ hpoint o ho.1 hname)
  cases hshape with
  | before o hoperand hp =>
    cases he with
    | before p ho hoperand' => exact hloose ho (by decide)
  | after o hoperand hp =>
    cases he with
    | after p ho hoperand' => exact hloose ho (by decide)
  | name | number | text | binary | group | call | index | lambda => rfl

section Prefixes

variable {s : Naming} {c : Context} {dot : Operator} {first : Expr}

/-- The steps that elements add to the chain before them. -/
def stepsOfAll (s : Naming) : List Expr → Except Fault (List Step)
  | [] => .ok []
  | e :: es => do
    let more ← stepsBehind s e
    let last ← stepsOfAll s es
    .ok (more ++ last)

/-- Whether an expression makes no chain but one that is a value. -/
def Expr.LinksValue (s : Naming) (e : Expr) : Prop :=
  ∀ chain, link s none e = .ok chain → chain.isQualifier = false

theorem link_withElements (hdot : dot.name = pathOperator) (hfirst : first.LinksValue s)
    (elements : List Expr) :
    link s none (first.withElements dot elements) = (do
      let chain ← link s none first
      let more ← stepsOfAll s elements
      .ok (chain.extend more)) := by
  induction elements generalizing first with
  | nil =>
    show link s none first = _
    rcases hlink : link s none first with fault | chain
    · rfl
    · exact congrArg Except.ok (Chain.extend_nil (hfirst chain hlink)).symm
  | cons e es ih =>
    have hbinary : link s none (.binary dot first e .start) = (do
        let chain ← link s none first
        let more ← stepsBehind s e
        .ok (chain.extend more)) := by
      rw [link_path s hdot]
      rcases hlink : link s none first with fault | chain
      · rfl
      · rw [Except.ok_bind, Except.ok_bind, link_behind (hfirst chain hlink) e]
        rcases stepsBehind s e with fault | more <;> rfl
    have hvalue : (Expr.binary dot first e .start).LinksValue s := by
      intro chain hchain
      rw [hbinary] at hchain
      obtain ⟨b, -, hchain⟩ := Except.bind_eq_ok_iff.1 hchain
      obtain ⟨more, -, hchain⟩ := Except.bind_eq_ok_iff.1 hchain
      obtain rfl := Except.ok.inj hchain
      exact b.isQualifier_extend more
    show link s none ((Expr.binary dot first e .start).withElements dot es) = _
    rw [ih hvalue, hbinary, stepsOfAll]
    rcases hlink : link s none first with fault | chain
    · rfl
    · rcases stepsBehind s e with fault | more
      · rfl
      · rcases stepsOfAll s es with fault | last
        · rfl
        · exact congrArg Except.ok (Chain.extend_extend (hfirst chain hlink) more last)

/-- A value in parentheses is one with the same value. -/
theorem link_group (hloose : first.isLoosePath = false) (p : Position) :
    link s none (.group first p) =
      (link s none first).map fun chain => .ofFormula p chain.formula := by
  rw [link, sealChain, hloose]
  rcases link s none first with fault | chain <;> rfl

theorem linksValue_of_not_isQualifier (hloose : first.isLoosePath = false)
    (hqualifier : first.isQualifier = false) : first.LinksValue s := fun _ hchain =>
  ((links_iff.1 hchain).isQualifier_eq hloose).trans hqualifier

theorem linksValue_group (p : Position) : (Expr.group first p).LinksValue s :=
  linksValue_of_not_isQualifier rfl rfl

theorem compile_eq_map (hloose : first.isLoosePath = false) :
    compile s first = (link s none first).map Chain.formula := by
  rw [compile, sealChain, hloose]
  rfl

variable (hdot : dot.name = pathOperator) (hloose : first.isLoosePath = false)
  (hqualifier : first.isQualifier = false) (elements : List Expr)
include hdot hloose hqualifier

/-- A prefix in parentheses is compiled if it is compiled without them. -/
theorem compile_group_withElements :
    (compile s ((Expr.group first .start).withElements dot elements)).map (fun _ => ()) =
      (compile s (first.withElements dot elements)).map fun _ => () := by
  rw [compile_eq_map (Expr.isLoosePath_withElements rfl elements),
    compile_eq_map (Expr.isLoosePath_withElements hloose elements),
    link_withElements hdot (linksValue_group _), link_group hloose,
    link_withElements hdot (linksValue_of_not_isQualifier hloose hqualifier)]
  rcases link s none first with fault | chain
  · rfl
  · rcases stepsOfAll s elements with fault | more <;> rfl

/-- A prefix in parentheses comes to what it comes to without them. -/
theorem outcome_group_withElements (c : Context) :
    ((Expr.group first .start).withElements dot elements).outcome s c =
      (first.withElements dot elements).outcome s c := by
  have hvalue : first.LinksValue s := linksValue_of_not_isQualifier hloose hqualifier
  rw [Expr.outcome_eq_bind (Expr.isLoosePath_withElements rfl elements),
    Expr.outcome_eq_bind (Expr.isLoosePath_withElements hloose elements),
    link_withElements hdot (linksValue_group _), link_group hloose, link_withElements hdot hvalue]
  rcases hchain : link s none first with fault | chain
  · rfl
  · rcases stepsOfAll s elements with fault | more
    · rfl
    · have hgroup : (Chain.ofFormula .start chain.formula).isQualifier = false := rfl
      exact Chain.outcome_extend_congr hgroup (hvalue chain hchain) rfl more

end Prefixes

/-- The formula of a text, with the lambdas around it. -/
def formulaIn (s : Naming) (text : String) (origin : Position) : Except Fault Formula := do
  let e ← parseExpression s.dialect.language text origin
  compile s e

/-- A text has a formula if its tree has one, wherever the nodes of the tree stand. -/
theorem Language.Parses.told_formulaIn {s : Naming} {text : String} {origin : Position} {e : Expr}
    (h : s.dialect.language.Parses text origin e) :
    told ((formulaIn s text origin).map fun _ => ()) = told ((compile s e).map fun _ => ()) := by
  obtain ⟨e', hparse, hshape⟩ := h
  rw [formulaIn, hparse, Except.ok_bind]
  have hcompile := hshape.compile s
  generalize compile s e = x at hcompile ⊢
  generalize compile s e' = y at hcompile ⊢
  cases hcompile with
  | ok hf => rfl
  | error hfault => exact congrArg Except.error hfault.message_eq

/-- A lookup can be cut in two anywhere, where the point only stands between operands, as it does in
the standard language. If what stands before the cut is not the bare word `this` or `parent`, it can
be put in parentheses: the text still has a formula or is refused with the same message, and it
comes to the same value or fails with the same message. -/
theorem prefix_can_be_grouped {s : Naming}
    (hpoint : ∀ o ∈ s.dialect.language.operators, o.name = pathOperator → o.fixity = .binary)
    (c : Context) {dot : Operator} (hdot : dot.name = pathOperator) {first : Expr}
    (hfirst : first.isQualifier = false) {elements : List Expr} {text grouped : String}
    {origin origin' : Position}
    (htext : s.dialect.language.Parses text origin (first.withElements dot elements))
    (hgrouped : s.dialect.language.Parses grouped origin'
      ((Expr.group first .start).withElements dot elements)) :
    told ((formulaIn s grouped origin').map fun _ => ()) =
        told ((formulaIn s text origin).map fun _ => ()) ∧
      told (outcomeIn s c grouped origin') = told (outcomeIn s c text origin) := by
  have hloose := htext.isLoosePath_eq hpoint
  constructor
  · rw [hgrouped.told_formulaIn, htext.told_formulaIn,
      compile_group_withElements hdot hloose hfirst]
  · rw [hgrouped.told_outcomeIn, htext.told_outcomeIn,
      outcome_group_withElements hdot hloose hfirst]

theorem prefix_can_be_grouped_first :
    ∃ n, outcomeIn ⟨.standard, []⟩ nestedItems "A.First().First().B" .start = .ok (.node n) ∧
      outcomeIn ⟨.standard, []⟩ nestedItems "(A.First()).First().B" .start = .ok (.node n) := by
  let dot : Operator := ⟨".", .binary, 100⟩
  have htext : outcomeIn ⟨.standard, []⟩ nestedItems "A.First().First().B" .start =
      .ok (.node _) := rfl
  obtain ⟨-, hvalue⟩ := @prefix_can_be_grouped ⟨.standard, []⟩ (by decide) nestedItems dot rfl
    (.binary dot (.name "A" .start) (.call "First" [] .start) .start) rfl
    [.call "First" [] .start, .name "B" .start] "A.First().First().B" "(A.First()).First().B"
    .start .start (Language.parses_of_gathered rfl) (Language.parses_of_gathered rfl)
  rw [htext, told_ok, told_eq_ok_iff] at hvalue
  exact ⟨_, htext, hvalue⟩

end DocQuery
