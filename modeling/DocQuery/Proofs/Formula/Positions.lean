/-
Trees that differ only in their positions have formulas that differ only in theirs.

* `Expr.SameShape` — the same tree but for its positions, which are in relation;
* `Expr.openings` — the names with which the lookups of an expression begin;
* `Vocabulary.Keeps` — a vocabulary whose own values and functions respect a correspondence;
* `compile_corresponds` — two trees of one shape have corresponding formulas, or one fault.

Design notes: a name means something else only where a lookup begins, so the names after a point
are no openings. Faults are compared as well as formulas, since both trees have to fail at the same
part. The relation between positions is that of the correspondence, so the same theorem serves for
one tree in two places and for one tree against itself.
-/
import DocQuery.Dialect.Extended
import DocQuery.Formula.Compile
import DocQuery.Proofs.Formula.Transfer

namespace DocQuery

/-! ### Trees of one shape -/

mutual

/-- Whether two trees differ only in positions, which are in relation. -/
inductive Expr.SameShape (Q : Position → Position → Prop) : Expr → Expr → Prop
  | name (n : String) {p p' : Position} :
    Q p p' → Expr.SameShape Q (.name n p) (.name n p')
  | number (digits : String) {p p' : Position} :
    Q p p' → Expr.SameShape Q (.number digits p) (.number digits p')
  | text (content : String) {p p' : Position} :
    Q p p' → Expr.SameShape Q (.text content p) (.text content p')
  | binary (o : Operator) {left left' right right' : Expr} {p p' : Position} :
    Expr.SameShape Q left left' → Expr.SameShape Q right right' → Q p p' →
      Expr.SameShape Q (.binary o left right p) (.binary o left' right' p')
  | before (o : Operator) {operand operand' : Expr} {p p' : Position} :
    Expr.SameShape Q operand operand' → Q p p' →
      Expr.SameShape Q (.before o operand p) (.before o operand' p')
  | after (o : Operator) {operand operand' : Expr} {p p' : Position} :
    Expr.SameShape Q operand operand' → Q p p' →
      Expr.SameShape Q (.after o operand p) (.after o operand' p')
  | group {inner inner' : Expr} {p p' : Position} :
    Expr.SameShape Q inner inner' → Q p p' →
      Expr.SameShape Q (.group inner p) (.group inner' p')
  | call (function : String) {arguments arguments' : List Expr} {p p' : Position} :
    Expr.AllSameShape Q arguments arguments' → Q p p' →
      Expr.SameShape Q (.call function arguments p) (.call function arguments' p')
  | index (n : String) {indexes indexes' : List Expr} {p p' : Position} :
    Expr.AllSameShape Q indexes indexes' → Q p p' →
      Expr.SameShape Q (.index n indexes p) (.index n indexes' p')
  | lambda {parameters parameters' : List Parameter} {body body' : Expr} {p p' : Position} :
    parameters.map (·.name) = parameters'.map (·.name) → Expr.SameShape Q body body' → Q p p' →
      Expr.SameShape Q (.lambda parameters body p) (.lambda parameters' body' p')

/-- Whether trees are of one shape, one by one. -/
inductive Expr.AllSameShape (Q : Position → Position → Prop) : List Expr → List Expr → Prop
  | nil : Expr.AllSameShape Q [] []
  | cons {e e' : Expr} {es es' : List Expr} :
    Expr.SameShape Q e e' → Expr.AllSameShape Q es es' →
      Expr.AllSameShape Q (e :: es) (e' :: es')

end

namespace Expr

variable {Q : Position → Position → Prop}

theorem SameShape.position {e e' : Expr} (h : e.SameShape Q e') : Q e.position e'.position := by
  cases h <;> assumption

theorem SameShape.isLoosePath_eq {e e' : Expr} (h : e.SameShape Q e') :
    e'.isLoosePath = e.isLoosePath := by
  cases h <;> rfl

theorem AllSameShape.length_eq {es es' : List Expr} (h : AllSameShape Q es es') :
    es'.length = es.length := by
  cases h with
  | nil => rfl
  | cons _ hes => rw [List.length_cons, List.length_cons, hes.length_eq]

mutual

/-- A tree is of its own shape. -/
theorem sameShape_refl (hQ : ∀ p, Q p p) : (e : Expr) → e.SameShape Q e
  | .name n p => .name n (hQ p)
  | .number digits p => .number digits (hQ p)
  | .text content p => .text content (hQ p)
  | .binary o left right p =>
    .binary o (sameShape_refl hQ left) (sameShape_refl hQ right) (hQ p)
  | .before o operand p => .before o (sameShape_refl hQ operand) (hQ p)
  | .after o operand p => .after o (sameShape_refl hQ operand) (hQ p)
  | .group inner p => .group (sameShape_refl hQ inner) (hQ p)
  | .call function arguments p => .call function (allSameShape_refl hQ arguments) (hQ p)
  | .index n indexes p => .index n (allSameShape_refl hQ indexes) (hQ p)
  | .lambda _ body p => .lambda rfl (sameShape_refl hQ body) (hQ p)

theorem allSameShape_refl (hQ : ∀ p, Q p p) : (es : List Expr) → AllSameShape Q es es
  | [] => .nil
  | e :: es => .cons (sameShape_refl hQ e) (allSameShape_refl hQ es)

end

mutual

/-- The names with which the lookups of an expression begin, where the expression may begin one
itself only at the head of a chain. -/
def openings (isHead : Bool) : Expr → List String
  | .name n _ => if isHead then [n] else []
  | .number _ _ | .text _ _ => []
  | .binary o left right _ =>
    left.openings (isHead || o.name != pathOperator) ++ right.openings (o.name != pathOperator)
  | .before o operand _ | .after o operand _ =>
    operand.openings (isHead || o.name != pathOperator)
  | .group inner _ => inner.openings true
  | .call _ arguments _ => openingsOfAll arguments
  | .index n indexes _ => (if isHead then [n] else []) ++ openingsOfAll indexes
  | .lambda _ body _ => body.openings true

/-- The names with which the lookups of several expressions begin. -/
def openingsOfAll : List Expr → List String
  | [] => []
  | e :: es => e.openings true ++ openingsOfAll es

end

end Expr

/-- Whether a lookup may begin with a name: with the property and, if the name is a qualifier, with
what it qualifies. -/
def Opens (Begins : Start → Prop) (name : String) : Prop :=
  Begins (.property name .all) ∧
    ∀ q, Qualifier.ofName? name = some q → Begins q.start ∧ ∀ m, Begins (.property m q.scope)

/-! ### Vocabularies -/

/-- Whether what a vocabulary adds of its own makes corresponding values of corresponding ones. -/
structure Vocabulary.Keeps (v : Vocabulary) (C : Correspondence) : Prop where
  constant : ∀ name x, v.constants.lookup name = some x → C.Values x x
  text : ∀ content x, v.texts.lookup content = some (some x) → C.Values x x
  function : ∀ name o, v.functions.lookup name = some (.operation o) →
    ∀ vs, C.Values (o.compute vs) (o.compute vs)
  binary : ∀ name o, v.binary.lookup name = some (.custom o) →
    ∀ vs, C.Values (o.compute vs) (o.compute vs)
  optional : ∀ name selector a,
    v.selectors.lookup name = some (.optionalLambda selector a) → C.Keeps a
  arrangement : ∀ name a, v.selectors.lookup name = some (.arrangement a) → C.Keeps a
  custom : ∀ name select, v.selectors.lookup name = some (.custom select) →
    C.Keeps (.custom name select)

theorem Vocabulary.mem_of_lookup {α : Type} {name : String} {x : α} {table : List (String × α)}
    (h : table.lookup name = some x) : (name, x) ∈ table := by
  induction table with
  | nil => cases h
  | cons entry table ih =>
    obtain ⟨k, y⟩ := entry
    rw [List.lookup_cons] at h
    split at h
    · rename_i hk
      obtain rfl := Option.some.inj h
      rw [beq_iff_eq.1 hk]
      exact List.mem_cons_self
    · exact List.mem_cons_of_mem _ (ih h)

/-- The standard vocabulary has only computed constants and no functions of its own. -/
theorem Vocabulary.standard_keeps (C : Correspondence) : Vocabulary.standard.Keeps C where
  constant := by
    intro name x h
    have hmem := mem_of_lookup h
    simp only [standard, List.mem_cons, Prod.mk.injEq, List.not_mem_nil, or_false] at hmem
    rcases hmem with ⟨-, rfl⟩ | ⟨-, rfl⟩ | ⟨-, rfl⟩ | ⟨-, rfl⟩ <;> exact .computed rfl
  text := by
    intro content x h
    cases h
  function := by
    intro name o h
    have hmem := mem_of_lookup h
    simp [standard, standardFunctions] at hmem
  binary := by
    intro name o h
    have hmem := mem_of_lookup h
    simp [standard, standardBinary] at hmem
  optional := by
    intro name selector a h
    refine Correspondence.keeps_of_standard fun n select ha => ?_
    have hmem := mem_of_lookup h
    subst ha
    simp [standard, standardSelectors] at hmem
  arrangement := by
    intro name a h
    refine Correspondence.keeps_of_standard fun n select ha => ?_
    have hmem := mem_of_lookup h
    subst ha
    simp [standard, standardSelectors] at hmem
  custom := by
    intro name select h
    have hmem := mem_of_lookup h
    simp [standard, standardSelectors] at hmem

/-- The extended vocabulary adds computed values and a selector that leaves out one item. -/
theorem Vocabulary.extended_keeps (C : Correspondence) : Dialect.extendedVocabulary.Keeps C where
  constant := by
    intro name x h
    rcases List.mem_cons.1 (mem_of_lookup h) with heq | hmem
    · obtain ⟨-, rfl⟩ := Prod.mk.inj heq
      exact .computed rfl
    · simp only [standard, List.mem_cons, Prod.mk.injEq, List.not_mem_nil, or_false] at hmem
      rcases hmem with ⟨-, rfl⟩ | ⟨-, rfl⟩ | ⟨-, rfl⟩ | ⟨-, rfl⟩ <;> exact .computed rfl
  text := by
    intro content x h
    have hmem := mem_of_lookup h
    simp only [Dialect.extendedVocabulary, List.mem_cons, Prod.mk.injEq, Option.some.injEq,
      List.not_mem_nil, or_false, reduceCtorEq, and_false] at hmem
    obtain ⟨-, rfl⟩ := hmem
    exact .computed rfl
  function := by
    intro name o h vs
    have hmem := mem_of_lookup h
    simp [Dialect.extendedVocabulary, standard, standardFunctions] at hmem
    obtain ⟨-, rfl⟩ := hmem
    simp only [Dialect.twice]
    split <;> exact .computed rfl
  binary := by
    intro name o h vs
    have hmem := mem_of_lookup h
    simp [Dialect.extendedVocabulary, standard, standardBinary] at hmem
    obtain ⟨-, rfl⟩ := hmem
    simp only [Dialect.joinTexts]
    split <;> exact .computed rfl
  optional := by
    intro name selector a h
    refine Correspondence.keeps_of_standard fun n select ha => ?_
    have hmem := mem_of_lookup h
    subst ha
    simp [Dialect.extendedVocabulary, standard, standardSelectors] at hmem
  arrangement := by
    intro name a h
    refine Correspondence.keeps_of_standard fun n select ha => ?_
    have hmem := mem_of_lookup h
    subst ha
    simp [Dialect.extendedVocabulary, standard, standardSelectors] at hmem
  custom := by
    intro name select h ns ns' hns
    have hmem := mem_of_lookup h
    simp [Dialect.extendedVocabulary, standard, standardSelectors] at hmem
    obtain ⟨-, rfl⟩ := hmem
    have htail := List.forall₂_drop 1 hns
    rw [List.drop_one, List.drop_one] at htail
    exact .many htail

/-! ### Chains -/

/-- Whether two chains differ only in positions, and begin where `Begins` allows it. -/
inductive Chain.Corresponds (C : Correspondence) (Begins : Start → Prop) : Chain → Chain → Prop
  | qualifier {q : Qualifier} {p p' : Position} :
    Begins q.start → (∀ m, Begins (.property m q.scope)) → C.position p p' →
      Chain.Corresponds C Begins (.qualifier q p) (.qualifier q p')
  | lookup {start : Start} {steps steps' : List Step} {p p' : Position} :
    Begins start → Step.AllCorrespond C Begins steps steps' → C.position p p' →
      Chain.Corresponds C Begins (.lookup start steps p) (.lookup start steps' p')
  | follow {base base' : Formula} {steps steps' : List Step} {p p' : Position} :
    base.Corresponds C Begins base' → Step.AllCorrespond C Begins steps steps' →
      C.position p p' →
        Chain.Corresponds C Begins (.follow base steps p) (.follow base' steps' p')

section Chains

variable {C : Correspondence} {Begins : Start → Prop}

theorem Step.AllCorrespond.append {ss ss' more more' : List Step}
    (h : Step.AllCorrespond C Begins ss ss') (hmore : Step.AllCorrespond C Begins more more') :
    Step.AllCorrespond C Begins (ss ++ more) (ss' ++ more') := by
  cases h with
  | nil => exact hmore
  | cons hs hss => exact .cons hs (hss.append hmore)

namespace Chain.Corresponds

variable {c c' : Chain}

theorem extend (h : c.Corresponds C Begins c') {more more' : List Step}
    (hmore : Step.AllCorrespond C Begins more more') :
    (c.extend more).Corresponds C Begins (c'.extend more') := by
  cases h with
  | qualifier hstart _ hp => exact .lookup hstart hmore hp
  | lookup hstart hsteps hp => exact .lookup hstart (hsteps.append hmore) hp
  | follow hbase hsteps hp => exact .follow hbase (hsteps.append hmore) hp

theorem member (h : c.Corresponds C Begins c') (name : String) {more more' : List Step}
    (hmore : Step.AllCorrespond C Begins more more') :
    (c.member name more).Corresponds C Begins (c'.member name more') := by
  cases h with
  | qualifier _ hscope hp => exact .lookup (hscope name) hmore hp
  | lookup hstart hsteps hp =>
    exact .lookup hstart (hsteps.append (.cons (.member name) hmore)) hp
  | follow hbase hsteps hp =>
    exact .follow hbase (hsteps.append (.cons (.member name) hmore)) hp

theorem formula (h : c.Corresponds C Begins c') : c.formula.Corresponds C Begins c'.formula := by
  cases h with
  | qualifier hstart _ hp => exact .lookup hstart .nil hp
  | lookup hstart hsteps hp => exact .lookup hstart hsteps hp
  | follow hbase hsteps hp =>
    cases hsteps with
    | nil => exact hbase
    | cons hs hss => exact .follow hbase (.cons hs hss) hp

theorem ofFormula {f f' : Formula} (h : f.Corresponds C Begins f') {p p' : Position}
    (hp : C.position p p') : (ofFormula p f).Corresponds C Begins (ofFormula p' f') :=
  .follow h .nil hp

end Chain.Corresponds

end Chains

/-! ### Meanings of words -/

section Words

variable {C : Correspondence} {Begins : Start → Prop} {s : Naming} {p p' : Position}

theorem Formula.AllCorrespond.length_eq {fs fs' : List Formula}
    (h : Formula.AllCorrespond C Begins fs fs') : fs'.length = fs.length := by
  cases h with
  | nil => rfl
  | cons _ hfs => rw [List.length_cons, List.length_cons, hfs.length_eq]

theorem parameterNamed?_parameter {name : String} {lambdas : List (List String)} {start : Start}
    (h : parameterNamed? name lambdas = some start) :
    ∃ lambda role, start = .parameter lambda name role := by
  induction lambdas with
  | nil => cases h
  | cons parameters outer ih =>
    rw [parameterNamed?] at h
    split at h
    · exact ⟨_, _, (Option.some.inj h).symm⟩
    · exact ⟨_, _, (Option.some.inj h).symm⟩
    · exact ih h

theorem startOf_begins (hparameter : ∀ l n r, Begins (.parameter l n r)) {name : String}
    (hname : Opens Begins name) : Begins (s.startOf name) := by
  rw [Naming.startOf]
  rcases hfound : parameterNamed? name s.lambdas with _ | start
  · exact hname.1
  · obtain ⟨lambda, role, rfl⟩ := parameterNamed?_parameter hfound
    exact hparameter lambda name role

theorem beginName_corresponds (hv : s.vocabulary.Keeps C)
    (hparameter : ∀ l n r, Begins (.parameter l n r)) {name : String}
    (hname : Opens Begins name) (hp : C.position p p') :
    (s.beginName name p).Corresponds C Begins (s.beginName name p') := by
  rw [Naming.beginName, Naming.beginName]
  rcases hq : Qualifier.ofName? name with _ | q
  · rcases hconstant : s.vocabulary.constants.lookup name with _ | x
    · exact .lookup (startOf_begins hparameter hname) .nil hp
    · exact .follow (.constant (hv.constant name x hconstant) hp) .nil hp
  · obtain ⟨hstart, hscope⟩ := hname.2 q hq
    exact .qualifier hstart hscope hp

theorem compileNumber_corresponds (digits : String) (hp : C.position p p') :
    C.Outcomes (Formula.Corresponds C Begins) (s.compileNumber digits p)
      (s.compileNumber digits p') := by
  rw [Naming.compileNumber, Naming.compileNumber]
  split
  · exact .error (.malformed _ hp)
  · split
    · exact .error (.malformed _ hp)
    · split
      · exact .ok (.constant (.computed rfl) hp)
      · exact .error (.malformed _ hp)

theorem compileText_corresponds (hv : s.vocabulary.Keeps C) (content : String)
    (hp : C.position p p') :
    C.Outcomes (Formula.Corresponds C Begins) (s.compileText content p)
      (s.compileText content p') := by
  rw [Naming.compileText, Naming.compileText]
  rcases htext : s.vocabulary.texts.lookup content with _ | _ | x
  · exact .ok (.constant (.computed rfl) hp)
  · exact .error (.malformed _ hp)
  · exact .ok (.constant (hv.text content x htext) hp)

theorem unknownFunction_corresponds (name : String) (hp : C.position p p') :
    C.Faults (s.unknownFunction name p) (s.unknownFunction name p') := by
  rw [Naming.unknownFunction, Naming.unknownFunction]
  split
  · exact .malformed _ hp
  · exact .malformed _ hp

/-- A call of corresponding arguments is accepted in both places or in none. -/
theorem buildCall_corresponds (hv : s.vocabulary.Keeps C) {name : String}
    {meaning : FunctionMeaning} (hmeaning : s.vocabulary.functions.lookup name = some meaning)
    {fs fs' : List Formula} (h : Formula.AllCorrespond C Begins fs fs') (hp : C.position p p') :
    C.Outcomes (Formula.Corresponds C Begins) (Naming.buildCall name p meaning fs)
      (Naming.buildCall name p' meaning fs') := by
  have hfault : C.Outcomes (Formula.Corresponds C Begins)
      (.error (wrongArity name meaning.arity fs.length p))
      (.error (wrongArity name meaning.arity fs'.length p')) := by
    rw [h.length_eq]
    exact .error (.malformed _ hp)
  cases meaning with
  | aggregate a => exact hfault
  | unary f =>
    cases h with
    | nil => exact hfault
    | cons hf hfs =>
      cases hfs with
      | nil => exact .ok (.apply f hf hp)
      | cons => exact hfault
  | test t =>
    cases h with
    | nil => exact hfault
    | cons hf hfs =>
      cases hfs with
      | nil => exact hfault
      | cons hg hfs =>
        cases hfs with
        | nil => exact .ok (.test t hf hg hp)
        | cons => exact hfault
  | concatenate =>
    cases h with
    | nil => exact hfault
    | cons hf hfs =>
      cases hfs with
      | nil => exact hfault
      | cons hg hfs => exact .ok (.concatenate (.cons hf (.cons hg hfs)) hp)
  | choose =>
    cases h with
    | nil => exact hfault
    | cons hf hfs =>
      cases hfs with
      | nil => exact hfault
      | cons hg hfs =>
        cases hfs with
        | nil => exact hfault
        | cons hh hfs =>
          cases hfs with
          | nil => exact .ok (.choose hf hg hh hp)
          | cons => exact hfault
  | now =>
    cases h with
    | nil => exact .ok (.now hp)
    | cons => exact hfault
  | operation o => exact .ok (.operation (hv.function name o hmeaning) h hp)

theorem BinaryMeaning.build_corresponds (hv : s.vocabulary.Keeps C) {name : String}
    {meaning : BinaryMeaning} (hmeaning : s.vocabulary.binary.lookup name = some meaning)
    {f f' g g' : Formula} (hf : f.Corresponds C Begins f') (hg : g.Corresponds C Begins g')
    (hp : C.position p p') :
    (meaning.build p f g).Corresponds C Begins (meaning.build p' f' g') := by
  cases meaning with
  | operation o => exact .binary o hf hg hp
  | both => exact .both hf hg hp
  | either => exact .either hf hg hp
  | fallback => exact .fallback hf hg hp
  | custom o => exact .operation (hv.binary name o hmeaning) (.cons hf (.cons hg .nil)) hp

theorem OperandMeaning.build_corresponds {f f' : Formula} (hf : f.Corresponds C Begins f')
    (hp : C.position p p') (meaning : OperandMeaning) :
    (meaning.build p f).Corresponds C Begins (meaning.build p' f') := by
  cases meaning with
  | apply function => exact .apply function hf hp
  | assert => exact .assert hf hp

theorem sealChain_corresponds {e e' : Expr} (h : e.SameShape C.position e')
    {chain chain' : Except Fault Chain}
    (hchain : C.Outcomes (Chain.Corresponds C Begins) chain chain') :
    C.Outcomes (Formula.Corresponds C Begins) (sealChain e chain) (sealChain e' chain') := by
  rw [sealChain, sealChain, h.isLoosePath_eq]
  split
  · exact .error (.malformed _ h.position)
  · exact hchain.map fun _ _ hc => hc.formula

/-- What an operator makes of its only operand corresponds. -/
theorem operand_corresponds (meaning : OperandMeaning) {e e' : Expr}
    (h : e.SameShape C.position e') {chain chain' : Except Fault Chain}
    (hchain : C.Outcomes (Chain.Corresponds C Begins) chain chain') (hp : C.position p p') :
    C.Outcomes (Chain.Corresponds C Begins)
      (do let f ← sealChain e chain; .ok (.ofFormula p (meaning.build p f)))
      (do let f ← sealChain e' chain'; .ok (.ofFormula p' (meaning.build p' f))) :=
  (sealChain_corresponds h hchain).bind fun _ _ hf =>
    .ok (.ofFormula (meaning.build_corresponds hf hp) hp)

/-! ### Calls

What a call makes of its arguments. That the arguments are compiled alike is assumed here, as far as
the call needs it. -/

variable {arguments arguments' : List Expr}

/-- A call of a function begins corresponding chains, or fails alike. -/
theorem link_function_corresponds (hv : s.vocabulary.Keeps C) (name : String)
    (h : Expr.AllSameShape C.position arguments arguments') (hp : C.position p p')
    (hfirst : ∀ a rest a' rest', arguments = a :: rest → arguments' = a' :: rest' →
      C.Outcomes (Chain.Corresponds C Begins) (link s none a) (link s none a'))
    (hsecond : ∀ a b rest a' b' rest', arguments = a :: b :: rest → arguments' = a' :: b' :: rest' →
      C.Outcomes (Formula.Corresponds C Begins) (compileLambda s name b) (compileLambda s name b'))
    (hall : C.Outcomes (Formula.AllCorrespond C Begins) (compileAll s arguments)
      (compileAll s arguments')) :
    C.Outcomes (Chain.Corresponds C Begins) (link s none (.call name arguments p))
      (link s none (.call name arguments' p')) := by
  rw [link, link, h.length_eq]
  split
  · exact .error (unknownFunction_corresponds name hp)
  · -- an aggregate has a collection, and a lambda if there is a second argument
    rename_i a hmeaning
    split
    · cases h with
      | nil => exact .error (.malformed _ hp)
      | cons hcollection hmore =>
        have hc := sealChain_corresponds hcollection (hfirst _ _ _ _ rfl rfl)
        cases hmore with
        | nil => exact hc.bind fun f f' hf => .ok (.ofFormula (.aggregate a hf hp) hp)
        | cons hlambda hmore =>
          cases hmore with
          | nil =>
            exact hc.bind fun f f' hf => (hsecond _ _ _ _ _ _ rfl rfl).bind fun body body' hbody =>
              .ok (.ofFormula (.aggregateBy a _ hf hbody hp) hp)
          | cons => exact .error (.malformed _ hp)
    · exact .error (.malformed _ hp)
  · rename_i meaning _ hmeaning
    split
    · exact hall.bind fun fs fs' hfs =>
        (buildCall_corresponds hv hmeaning hfs hp).map fun _ _ hf => .ofFormula hf hp
    · exact .error (unknownFunction_corresponds name hp)

/-- A call of a selector goes on with corresponding chains, or fails alike. -/
theorem link_selector_corresponds (hv : s.vocabulary.Keeps C) (name : String)
    (h : Expr.AllSameShape C.position arguments arguments') (hp : C.position p p')
    (hfirst : ∀ a rest a' rest', arguments = a :: rest → arguments' = a' :: rest' →
      C.Outcomes (Formula.Corresponds C Begins) (compileLambda s name a) (compileLambda s name a'))
    (hall : C.Outcomes (Formula.AllCorrespond C Begins) (compileAll s arguments)
      (compileAll s arguments'))
    {chain chain' : Chain} (hchain : chain.Corresponds C Begins chain') :
    C.Outcomes (Chain.Corresponds C Begins) (link s (some chain) (.call name arguments p))
      (link s (some chain') (.call name arguments' p')) := by
  rw [link, link, h.length_eq]
  split
  · exact .error (.malformed _ hp)
  · rename_i meaning hmeaning
    have hmore {step step' : Step} (hstep : step.Corresponds C Begins step') :=
      hchain.extend (.cons hstep .nil)
    cases meaning with
    | lambda selector =>
      cases h with
      | nil => exact .error (.malformed _ hp)
      | cons _ hrest =>
        cases hrest with
        | cons => exact .error (.malformed _ hp)
        | nil =>
          exact (hfirst _ _ _ _ rfl rfl).bind fun body body' hbody =>
            .ok (hmore (.through selector _ hbody hp))
    | optionalLambda selector a =>
      cases h with
      | nil => exact .ok (hmore (.arrange (hv.optional name selector a hmeaning) hp))
      | cons _ hrest =>
        cases hrest with
        | cons => exact .error (.malformed _ hp)
        | nil =>
          exact (hfirst _ _ _ _ rfl rfl).bind fun body body' hbody =>
            .ok (hmore (.through selector _ hbody hp))
    | arrangement a =>
      cases h with
      | nil => exact .ok (hmore (.arrange (hv.arrangement name a hmeaning) hp))
      | cons => exact .error (.malformed _ hp)
    | positions =>
      cases h with
      | nil => exact .error (.malformed _ hp)
      | cons => exact hall.bind fun fs fs' hfs => .ok (hmore (.positions hfs hp))
    | custom select =>
      cases h with
      | nil => exact .ok (hmore (.arrange (hv.custom name select hmeaning) hp))
      | cons => exact .error (.malformed _ hp)

end Words

/-! ### Trees -/

section Trees

variable {C : Correspondence} {Begins : Start → Prop}

mutual

/-- Trees of one shape make corresponding chains of corresponding chains, or fail alike. -/
theorem link_corresponds (hparameter : ∀ l n r, Begins (.parameter l n r)) {s : Naming}
    (hv : s.vocabulary.Keeps C) {before before' : Option Chain}
    (hbefore : Option.Rel (Chain.Corresponds C Begins) before before') {e e' : Expr}
    (h : e.SameShape C.position e') (hopens : ∀ n ∈ e.openings before.isNone, Opens Begins n) :
    C.Outcomes (Chain.Corresponds C Begins) (link s before e) (link s before' e') := by
  cases h with
  | name n hp =>
    cases hbefore with
    | none =>
      have hname := hopens n (by simp [Expr.openings])
      exact .ok (beginName_corresponds hv hparameter hname hp)
    | some hchain => exact .ok (hchain.member n .nil)
  | number digits hp =>
    cases hbefore with
    | none => exact (compileNumber_corresponds digits hp).map fun _ _ hf => .ofFormula hf hp
    | some hchain => exact .error (.malformed _ hp)
  | text content hp =>
    cases hbefore with
    | none => exact (compileText_corresponds hv content hp).map fun _ _ hf => .ofFormula hf hp
    | some hchain => exact .ok (hchain.member content .nil)
  | @index n indexes indexes' p p' hindexes hp =>
    have hall := compileAll_corresponds hparameter hv hindexes fun m hm =>
      hopens m (List.mem_append_right _ hm)
    rw [link, link]
    refine hall.bind fun fs fs' hfs => ?_
    cases hbefore with
    | none =>
      have hname := hopens n (by simp [Expr.openings])
      exact .ok (.lookup (startOf_begins hparameter hname) (.cons (.index hfs) .nil) hp)
    | some hchain => exact .ok (hchain.member n (.cons (.index hfs) .nil))
  | @group inner inner' p p' hinner hp =>
    cases hbefore with
    | none =>
      rw [link, link]
      exact (sealChain_corresponds hinner (link_corresponds hparameter hv .none hinner hopens)).map
        fun _ _ hf => .ofFormula hf hp
    | some hchain => exact .error (.malformed _ hp)
  | lambda _ _ hp =>
    cases hbefore with
    | none => exact .error (.malformed _ hp)
    | some hchain => exact .error (.malformed _ hp)
  | @before o operand operand' p p' hoperand hp =>
    rw [link.eq_def, link.eq_def s before']
    simp only
    rw [Expr.openings] at hopens
    by_cases hpath : o.name = pathOperator
    · simp only [if_pos hpath]
      exact link_corresponds hparameter hv hbefore hoperand (by simpa [hpath] using hopens)
    · simp only [if_neg hpath]
      cases hbefore with
      | some hchain => exact .error (.malformed _ hp)
      | none =>
        simp only
        split
        · exact .error (.malformed _ hp)
        · rename_i meaning _
          exact operand_corresponds meaning hoperand
            (link_corresponds hparameter hv .none hoperand (by simpa using hopens)) hp
  | @after o operand operand' p p' hoperand hp =>
    rw [link.eq_def, link.eq_def s before']
    simp only
    rw [Expr.openings] at hopens
    by_cases hpath : o.name = pathOperator
    · simp only [if_pos hpath]
      exact link_corresponds hparameter hv hbefore hoperand (by simpa [hpath] using hopens)
    · simp only [if_neg hpath]
      cases hbefore with
      | some hchain => exact .error (.malformed _ hp)
      | none =>
        simp only
        split
        · exact .error (.malformed _ hp)
        · rename_i meaning _
          exact operand_corresponds meaning hoperand
            (link_corresponds hparameter hv .none hoperand (by simpa using hopens)) hp
  | @binary o left left' right right' p p' hleft hright hp =>
    rw [link.eq_def, link.eq_def s before']
    simp only
    rw [Expr.openings] at hopens
    have hinleft := fun n hn => hopens n (List.mem_append_left _ hn)
    have hinright := fun n hn => hopens n (List.mem_append_right _ hn)
    by_cases hpath : o.name = pathOperator
    · simp only [if_pos hpath]
      refine (link_corresponds hparameter hv hbefore hleft (by simpa [hpath] using hinleft)).bind
        fun c c' hc => ?_
      exact link_corresponds hparameter hv (.some hc) hright (by simpa [hpath] using hinright)
    · simp only [if_neg hpath]
      cases hbefore with
      | some hchain => exact .error (.malformed _ hp)
      | none =>
        simp only
        split
        · exact .error (.malformed _ hp)
        · rename_i meaning hmeaning
          have hl := link_corresponds hparameter hv .none hleft (by simpa using hinleft)
          have hr := link_corresponds hparameter hv .none hright
            (by simpa [bne_iff_ne.2 hpath] using hinright)
          exact (sealChain_corresponds hleft hl).bind fun f f' hf =>
            (sealChain_corresponds hright hr).bind fun g g' hg =>
              .ok (.ofFormula (BinaryMeaning.build_corresponds hv hmeaning hf hg hp) hp)
  | @call n arguments arguments' p p' harguments hp =>
    rw [Expr.openings] at hopens
    cases hbefore with
    | none =>
      refine link_function_corresponds hv n harguments hp ?_ ?_
        (compileAll_corresponds hparameter hv harguments hopens)
      · rintro a rest a' rest' rfl rfl
        cases harguments with
        | cons ha _ =>
          exact link_corresponds hparameter hv .none ha fun m hm =>
            hopens m (List.mem_append_left _ hm)
      · rintro a b rest a' b' rest' rfl rfl
        cases harguments with
        | cons _ hmore =>
          cases hmore with
          | cons hb _ =>
            exact compileLambda_corresponds hparameter hv n hb fun m hm =>
              hopens m (List.mem_append_right _ (List.mem_append_left _ hm))
    | some hchain =>
      refine link_selector_corresponds hv n harguments hp ?_
        (compileAll_corresponds hparameter hv harguments hopens) hchain
      rintro a rest a' rest' rfl rfl
      cases harguments with
      | cons ha _ =>
        exact compileLambda_corresponds hparameter hv n ha fun m hm =>
          hopens m (List.mem_append_left _ hm)
termination_by sizeOf e

/-- Lambdas of one shape have corresponding bodies, or fail alike. -/
theorem compileLambda_corresponds (hparameter : ∀ l n r, Begins (.parameter l n r)) {s : Naming}
    (hv : s.vocabulary.Keeps C) (function : String) {e e' : Expr} (h : e.SameShape C.position e')
    (hopens : ∀ n ∈ e.openings true, Opens Begins n) :
    C.Outcomes (Formula.Corresponds C Begins) (compileLambda s function e)
      (compileLambda s function e') := by
  cases h with
  | @lambda parameters parameters' body body' p p' hnames hbody hp =>
    have hlength : parameters'.length = parameters.length := by
      simpa using (congrArg List.length hnames).symm
    have hempty : parameters'.isEmpty = parameters.isEmpty := by
      cases parameters <;> cases parameters' <;> simp_all
    rw [compileLambda, compileLambda, hlength, hempty, hnames]
    split
    · exact .error (.malformed _ hp)
    · have hinside : (s.enter (parameters'.map (·.name))).vocabulary.Keeps C := hv
      exact sealChain_corresponds hbody (link_corresponds hparameter hinside .none hbody hopens)
  | name _ hp | number _ hp | text _ hp | binary _ _ _ hp | before _ _ hp | after _ _ hp
  | group _ hp | call _ _ hp | index _ _ hp => exact .error (.malformed _ hp)
termination_by sizeOf e

theorem compileAll_corresponds (hparameter : ∀ l n r, Begins (.parameter l n r)) {s : Naming}
    (hv : s.vocabulary.Keeps C) {es es' : List Expr} (h : Expr.AllSameShape C.position es es')
    (hopens : ∀ n ∈ Expr.openingsOfAll es, Opens Begins n) :
    C.Outcomes (Formula.AllCorrespond C Begins) (compileAll s es) (compileAll s es') := by
  cases h with
  | nil => exact .ok .nil
  | cons he hes =>
    rw [compileAll, compileAll]
    have hfirst := fun n hn => hopens n (List.mem_append_left _ hn)
    have hmore := fun n hn => hopens n (List.mem_append_right _ hn)
    exact (sealChain_corresponds he (link_corresponds hparameter hv .none he hfirst)).bind
      fun f f' hf => (compileAll_corresponds hparameter hv hes hmore).bind fun fs fs' hfs =>
        .ok (.cons hf hfs)
termination_by sizeOf es

end

/-- Trees of one shape have corresponding formulas, or fail alike. -/
theorem compile_corresponds (hparameter : ∀ l n r, Begins (.parameter l n r)) {s : Naming}
    (hv : s.vocabulary.Keeps C) {e e' : Expr} (h : e.SameShape C.position e')
    (hopens : ∀ n ∈ e.openings true, Opens Begins n) :
    C.Outcomes (Formula.Corresponds C Begins) (compile s e) (compile s e') :=
  sealChain_corresponds h (link_corresponds hparameter hv .none h hopens)

end Trees

end DocQuery
