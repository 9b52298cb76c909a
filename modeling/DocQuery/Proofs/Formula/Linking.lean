/-
What the formulas of expressions are built from.

* `Links`, `Compiles`, `CompilesAll`, `CompilesLambda` — the rules by which an expression goes on
  with a chain, becomes a formula, and becomes the body of a lambda;
* `links_iff`, `compiles_iff` — the compiler follows these rules and no others.

Design notes: there is one rule for each way in which an expression is accepted, and none for the
ways in which it is refused. What is true of every formula that is compiled is shown by going
through the rules, so that the order in which the compiler looks at things plays no part.
-/
import DocQuery.Formula.Compile
import DocQuery.Proofs.Outcome

namespace DocQuery

mutual

/-- Whether an expression makes the chain `c` of the chain before it, if there is one. -/
inductive Links : Naming → Option Chain → Expr → Chain → Prop
  | name {s : Naming} (n : String) (p : Position) : Links s none (.name n p) (s.beginName n p)
  | memberName {s : Naming} {c : Chain} (n : String) (p : Position) :
    Links s (some c) (.name n p) (c.member n [])
  | text {s : Naming} {content : String} {p : Position} {f : Formula} :
    s.compileText content p = .ok f → Links s none (.text content p) (.ofFormula p f)
  | memberText {s : Naming} {c : Chain} (content : String) (p : Position) :
    Links s (some c) (.text content p) (c.member content [])
  | number {s : Naming} {digits : String} {p : Position} {f : Formula} :
    s.compileNumber digits p = .ok f → Links s none (.number digits p) (.ofFormula p f)
  | index {s : Naming} {n : String} {indexes : List Expr} {p : Position} {fs : List Formula} :
    CompilesAll s indexes fs →
      Links s none (.index n indexes p) (.lookup (s.startOf n) [.index fs] p)
  | memberIndex {s : Naming} {c : Chain} {n : String} {indexes : List Expr} {p : Position}
    {fs : List Formula} :
    CompilesAll s indexes fs → Links s (some c) (.index n indexes p) (c.member n [.index fs])
  | group {s : Naming} {inner : Expr} {p : Position} {f : Formula} :
    Compiles s inner f → Links s none (.group inner p) (.ofFormula p f)
  | looseBefore {s : Naming} {before : Option Chain} {o : Operator} {operand : Expr} {p : Position}
    {c : Chain} :
    o.name = pathOperator → Links s before operand c → Links s before (.before o operand p) c
  | before {s : Naming} {o : Operator} {operand : Expr} {p : Position} {f : Formula}
    {meaning : OperandMeaning} :
    o.name ≠ pathOperator → s.vocabulary.before.lookup o.name = some meaning →
      Compiles s operand f → Links s none (.before o operand p) (.ofFormula p (meaning.build p f))
  | looseAfter {s : Naming} {before : Option Chain} {o : Operator} {operand : Expr} {p : Position}
    {c : Chain} :
    o.name = pathOperator → Links s before operand c → Links s before (.after o operand p) c
  | after {s : Naming} {o : Operator} {operand : Expr} {p : Position} {f : Formula}
    {meaning : OperandMeaning} :
    o.name ≠ pathOperator → s.vocabulary.after.lookup o.name = some meaning →
      Compiles s operand f → Links s none (.after o operand p) (.ofFormula p (meaning.build p f))
  | path {s : Naming} {before : Option Chain} {o : Operator} {left right : Expr} {p : Position}
    {c c' : Chain} :
    o.name = pathOperator → Links s before left c → Links s (some c) right c' →
      Links s before (.binary o left right p) c'
  | binary {s : Naming} {o : Operator} {left right : Expr} {p : Position} {f g : Formula}
    {meaning : BinaryMeaning} :
    o.name ≠ pathOperator → s.vocabulary.binary.lookup o.name = some meaning →
      Compiles s left f → Compiles s right g →
        Links s none (.binary o left right p) (.ofFormula p (meaning.build p f g))
  | aggregate {s : Naming} {n : String} {collection : Expr} {p : Position} {a : Aggregate}
    {f : Formula} :
    s.vocabulary.functions.lookup n = some (.aggregate a) → a.arity.admits 1 →
      Compiles s collection f →
        Links s none (.call n [collection] p) (.ofFormula p (.aggregate a f p))
  | aggregateBy {s : Naming} {n : String} {collection lambda : Expr} {p : Position} {a : Aggregate}
    {f body : Formula} :
    s.vocabulary.functions.lookup n = some (.aggregate a) → a.arity.admits 2 →
      Compiles s collection f → CompilesLambda s n lambda body →
        Links s none (.call n [collection, lambda] p)
          (.ofFormula p (.aggregateBy a f s.lambdas.length body p))
  | call {s : Naming} {n : String} {arguments : List Expr} {p : Position}
    {meaning : FunctionMeaning} {fs : List Formula} {f : Formula} :
    s.vocabulary.functions.lookup n = some meaning → (∀ a, meaning ≠ .aggregate a) →
      meaning.isKnownWith arguments.length → CompilesAll s arguments fs →
        meaning.build? p fs = some f → Links s none (.call n arguments p) (.ofFormula p f)
  | through {s : Naming} {c : Chain} {n : String} {lambda : Expr} {p : Position}
    {selector : LambdaSelector} {body : Formula} :
    (s.vocabulary.selectors.lookup n = some (.lambda selector) ∨
        ∃ otherwise, s.vocabulary.selectors.lookup n = some (.optionalLambda selector otherwise)) →
      CompilesLambda s n lambda body →
        Links s (some c) (.call n [lambda] p)
          (c.extend [.through selector s.lambdas.length body p])
  | arrange {s : Naming} {c : Chain} {n : String} {p : Position} {arrangement : Arrangement} :
    (s.vocabulary.selectors.lookup n = some (.arrangement arrangement) ∨
        ∃ selector, s.vocabulary.selectors.lookup n = some (.optionalLambda selector arrangement)) →
      Links s (some c) (.call n [] p) (c.extend [.arrange arrangement p])
  | positions {s : Naming} {c : Chain} {n : String} {first : Expr} {rest : List Expr} {p : Position}
    {fs : List Formula} :
    s.vocabulary.selectors.lookup n = some .positions → CompilesAll s (first :: rest) fs →
      Links s (some c) (.call n (first :: rest) p) (c.extend [.at fs p])
  | custom {s : Naming} {c : Chain} {n : String} {p : Position} {select : List Node → View} :
    s.vocabulary.selectors.lookup n = some (.custom select) →
      Links s (some c) (.call n [] p) (c.extend [.arrange (.custom n select) p])

/-- Whether an expression becomes the formula `f`. -/
inductive Compiles : Naming → Expr → Formula → Prop
  | sealed {s : Naming} {e : Expr} {c : Chain} :
    e.isLoosePath = false → Links s none e c → Compiles s e c.formula

/-- Whether expressions become the formulas `fs`, one by one. -/
inductive CompilesAll : Naming → List Expr → List Formula → Prop
  | nil {s : Naming} : CompilesAll s [] []
  | cons {s : Naming} {e : Expr} {es : List Expr} {f : Formula} {fs : List Formula} :
    Compiles s e f → CompilesAll s es fs → CompilesAll s (e :: es) (f :: fs)

/-- Whether an expression is a lambda that the function or selector of this name takes, and its body
becomes the formula `f`. -/
inductive CompilesLambda : Naming → String → Expr → Formula → Prop
  | lambda {s : Naming} {function : String} {parameters : List Parameter} {body : Expr}
    {p : Position} {f : Formula} :
    parameters ≠ [] → parameters.length ≤ 2 →
      Compiles (s.enter (parameters.map (·.name))) body f →
        CompilesLambda s function (.lambda parameters body p) f

end

theorem CompilesAll.length_eq {s : Naming} {es : List Expr} {fs : List Formula}
    (h : CompilesAll s es fs) : es.length = fs.length := by
  induction es generalizing fs with
  | nil =>
    cases h
    rfl
  | cons e es ih =>
    cases h with
    | cons _ hfs => rw [List.length_cons, List.length_cons, ih hfs]

theorem sealChain_eq_ok_iff {e : Expr} {chain : Except Fault Chain} {f : Formula} :
    sealChain e chain = .ok f ↔ e.isLoosePath = false ∧ ∃ c, chain = .ok c ∧ c.formula = f := by
  rw [sealChain]
  rcases e.isLoosePath with _ | _
  · simp [Except.map_eq_ok_iff]
  · simp

theorem compiles_of_seal {s : Naming} {e : Expr} {f : Formula}
    (hlinks : ∀ {c}, link s none e = .ok c → Links s none e c)
    (h : sealChain e (link s none e) = .ok f) : Compiles s e f := by
  obtain ⟨hloose, c, hc, rfl⟩ := sealChain_eq_ok_iff.1 h
  exact .sealed hloose (hlinks hc)

mutual

theorem links_of_link {s : Naming} {before : Option Chain} {e : Expr} {c : Chain}
    (h : link s before e = .ok c) : Links s before e c := by
  match e with
  | .name n p =>
    rcases before with _ | b
    · obtain rfl := Except.ok.inj h
      exact .name n p
    · obtain rfl := Except.ok.inj h
      exact .memberName n p
  | .text content p =>
    rcases before with _ | b
    · obtain ⟨f, hf, rfl⟩ := Except.map_eq_ok_iff.1 h
      exact .text hf
    · obtain rfl := Except.ok.inj h
      exact .memberText content p
  | .number digits p =>
    rcases before with _ | b
    · obtain ⟨f, hf, rfl⟩ := Except.map_eq_ok_iff.1 h
      exact .number hf
    · simp only [link, reduceCtorEq] at h
  | .index n indexes p =>
    rw [link] at h
    obtain ⟨fs, hfs, h⟩ := Except.bind_eq_ok_iff.1 h
    have hall := compilesAll_of_compileAll hfs
    rcases before with _ | b
    · obtain rfl := Except.ok.inj h
      exact .index hall
    · obtain rfl := Except.ok.inj h
      exact .memberIndex hall
  | .group inner p =>
    rcases before with _ | b
    · obtain ⟨f, hf, rfl⟩ := Except.map_eq_ok_iff.1 h
      exact .group (compiles_of_seal links_of_link hf)
    · simp only [link, reduceCtorEq] at h
  | .lambda parameters body p =>
    rcases before with _ | b <;> simp only [link, reduceCtorEq] at h
  | .before o operand p =>
    rw [link.eq_def] at h
    simp only at h
    split at h
    · rename_i hpath
      exact .looseBefore hpath (links_of_link h)
    · rename_i hpath
      rcases before with _ | b
      · simp only at h
        split at h
        · cases h
        · rename_i meaning hmeaning
          obtain ⟨f, hf, h⟩ := Except.bind_eq_ok_iff.1 h
          obtain rfl := Except.ok.inj h
          exact .before hpath hmeaning (compiles_of_seal links_of_link hf)
      · cases h
  | .after o operand p =>
    rw [link.eq_def] at h
    simp only at h
    split at h
    · rename_i hpath
      exact .looseAfter hpath (links_of_link h)
    · rename_i hpath
      rcases before with _ | b
      · simp only at h
        split at h
        · cases h
        · rename_i meaning hmeaning
          obtain ⟨f, hf, h⟩ := Except.bind_eq_ok_iff.1 h
          obtain rfl := Except.ok.inj h
          exact .after hpath hmeaning (compiles_of_seal links_of_link hf)
      · cases h
  | .binary o left right p =>
    rw [link.eq_def] at h
    simp only at h
    split at h
    · rename_i hpath
      obtain ⟨b, hleft, h⟩ := Except.bind_eq_ok_iff.1 h
      exact .path hpath (links_of_link hleft) (links_of_link h)
    · rename_i hpath
      rcases before with _ | b
      · simp only at h
        split at h
        · cases h
        · rename_i meaning hmeaning
          obtain ⟨f, hf, h⟩ := Except.bind_eq_ok_iff.1 h
          obtain ⟨g, hg, h⟩ := Except.bind_eq_ok_iff.1 h
          obtain rfl := Except.ok.inj h
          exact .binary hpath hmeaning (compiles_of_seal links_of_link hf)
            (compiles_of_seal links_of_link hg)
      · cases h
  | .call n arguments p =>
    rcases before with _ | b
    · rw [link] at h
      split at h
      · cases h
      · rename_i a hmeaning
        -- an aggregate may have a lambda, which is no value; all other functions have values only
        split at h
        · rename_i hadmits
          split at h
          · obtain ⟨f, hf, h⟩ := Except.bind_eq_ok_iff.1 h
            obtain rfl := Except.ok.inj h
            exact .aggregate hmeaning hadmits (compiles_of_seal links_of_link hf)
          · obtain ⟨f, hf, h⟩ := Except.bind_eq_ok_iff.1 h
            obtain ⟨body, hbody, h⟩ := Except.bind_eq_ok_iff.1 h
            obtain rfl := Except.ok.inj h
            exact .aggregateBy hmeaning hadmits (compiles_of_seal links_of_link hf)
              (compilesLambda_of_compileLambda hbody)
          · cases h
        · cases h
      · rename_i meaning hne hmeaning
        split at h
        · rename_i hknown
          obtain ⟨fs, hfs, h⟩ := Except.bind_eq_ok_iff.1 h
          obtain ⟨f, hf, rfl⟩ := Except.map_eq_ok_iff.1 h
          rw [Naming.buildCall] at hf
          split at hf
          · rename_i hbuild
            obtain rfl := Except.ok.inj hf
            exact .call hmeaning (fun a ha => hne a ha) hknown
              (compilesAll_of_compileAll hfs) hbuild
          · cases hf
        · cases h
    · rw [link] at h
      split at h
      · cases h
      · rename_i meaning hmeaning
        split at h
        · obtain ⟨body, hbody, h⟩ := Except.bind_eq_ok_iff.1 h
          obtain rfl := Except.ok.inj h
          exact .through (.inl hmeaning) (compilesLambda_of_compileLambda hbody)
        · obtain ⟨body, hbody, h⟩ := Except.bind_eq_ok_iff.1 h
          obtain rfl := Except.ok.inj h
          exact .through (.inr ⟨_, hmeaning⟩) (compilesLambda_of_compileLambda hbody)
        · -- without its lambda, the selector arranges
          obtain rfl := Except.ok.inj h
          exact .arrange (.inr ⟨_, hmeaning⟩)
        · obtain rfl := Except.ok.inj h
          exact .arrange (.inl hmeaning)
        · obtain ⟨fs, hfs, h⟩ := Except.bind_eq_ok_iff.1 h
          obtain rfl := Except.ok.inj h
          exact .positions hmeaning (compilesAll_of_compileAll hfs)
        · obtain rfl := Except.ok.inj h
          exact .custom hmeaning
        · cases h
        · cases h
termination_by sizeOf e

theorem compilesAll_of_compileAll {s : Naming} {es : List Expr} {fs : List Formula}
    (h : compileAll s es = .ok fs) : CompilesAll s es fs := by
  match es with
  | [] =>
    obtain rfl := Except.ok.inj h
    exact .nil
  | e :: es =>
    rw [compileAll] at h
    obtain ⟨f, hf, h⟩ := Except.bind_eq_ok_iff.1 h
    obtain ⟨gs, hgs, h⟩ := Except.bind_eq_ok_iff.1 h
    obtain rfl := Except.ok.inj h
    exact .cons (compiles_of_seal links_of_link hf) (compilesAll_of_compileAll hgs)
termination_by sizeOf es

theorem compilesLambda_of_compileLambda {s : Naming} {function : String} {e : Expr} {f : Formula}
    (h : compileLambda s function e = .ok f) : CompilesLambda s function e f := by
  match e with
  | .lambda parameters body p =>
    rw [compileLambda] at h
    split at h
    · cases h
    · rename_i hcount
      simp only [Bool.or_eq_true, List.isEmpty_iff, decide_eq_true_eq, not_or, Nat.not_lt] at hcount
      exact .lambda hcount.1 hcount.2 (compiles_of_seal links_of_link h)
  | .name .. | .number .. | .text .. | .binary .. | .before .. | .after .. | .group .. | .call ..
  | .index .. => simp only [compileLambda, reduceCtorEq] at h
termination_by sizeOf e

end

theorem seal_of_compiles {s : Naming} {e : Expr} {f : Formula}
    (hlink : ∀ {c}, Links s none e c → link s none e = .ok c) (h : Compiles s e f) :
    sealChain e (link s none e) = .ok f := by
  cases h with
  | sealed hloose hc => exact sealChain_eq_ok_iff.2 ⟨hloose, _, hlink hc, rfl⟩

mutual

theorem link_of_links {s : Naming} {before : Option Chain} {e : Expr} {c : Chain}
    (h : Links s before e c) : link s before e = .ok c := by
  cases h with
  | name | memberName | memberText => rfl
  | text hf | number hf =>
    rw [link, hf]
    rfl
  | index hfs | memberIndex hfs =>
    rw [link, compileAll_of_compilesAll hfs]
    rfl
  | group hf =>
    rw [link, seal_of_compiles link_of_links hf]
    rfl
  | looseBefore hpath hc | looseAfter hpath hc =>
    rw [link.eq_def]
    simp only [if_pos hpath]
    exact link_of_links hc
  | before hpath hmeaning hf | after hpath hmeaning hf =>
    rw [link.eq_def]
    simp only [if_neg hpath, hmeaning]
    rw [seal_of_compiles link_of_links hf]
    rfl
  | path hpath hleft hright =>
    rw [link.eq_def]
    simp only [if_pos hpath]
    rw [link_of_links hleft]
    exact link_of_links hright
  | binary hpath hmeaning hf hg =>
    rw [link.eq_def]
    simp only [if_neg hpath, hmeaning]
    rw [seal_of_compiles link_of_links hf, seal_of_compiles link_of_links hg]
    rfl
  | aggregate hmeaning hadmits hf =>
    rw [link]
    simp only [hmeaning, List.length_cons, List.length_nil, hadmits, if_true]
    rw [seal_of_compiles link_of_links hf]
    rfl
  | aggregateBy hmeaning hadmits hf hbody =>
    rw [link]
    simp only [hmeaning, List.length_cons, List.length_nil, hadmits, if_true]
    rw [seal_of_compiles link_of_links hf, compileLambda_of_compilesLambda hbody]
    rfl
  | @call _ n _ p meaning fs f hmeaning hne hknown hfs hbuild =>
    have hbuilt : Naming.buildCall n p meaning fs = .ok f := by
      rw [Naming.buildCall, hbuild]
    rw [link]
    cases meaning with
    | aggregate a => exact absurd rfl (hne a)
    | unary | test | concatenate | choose | now | operation =>
      simp only [hmeaning, if_pos hknown]
      rw [compileAll_of_compilesAll hfs]
      exact Except.map_eq_ok_iff.2 ⟨f, hbuilt, rfl⟩
  | through hmeaning hbody =>
    rcases hmeaning with hmeaning | ⟨otherwise, hmeaning⟩ <;>
    · rw [link]
      simp only [hmeaning]
      rw [compileLambda_of_compilesLambda hbody]
      rfl
  | arrange hmeaning =>
    rcases hmeaning with hmeaning | ⟨selector, hmeaning⟩ <;>
    · rw [link]
      simp only [hmeaning]
  | positions hmeaning hfs =>
    rw [link]
    simp only [hmeaning]
    rw [compileAll_of_compilesAll hfs]
    rfl
  | custom hmeaning =>
    rw [link]
    simp only [hmeaning]
termination_by sizeOf e

theorem compileAll_of_compilesAll {s : Naming} {es : List Expr} {fs : List Formula}
    (h : CompilesAll s es fs) : compileAll s es = .ok fs := by
  cases h with
  | nil => rfl
  | cons hf hfs =>
    rw [compileAll, seal_of_compiles link_of_links hf, compileAll_of_compilesAll hfs]
    rfl
termination_by sizeOf es

theorem compileLambda_of_compilesLambda {s : Naming} {function : String} {e : Expr} {f : Formula}
    (h : CompilesLambda s function e f) : compileLambda s function e = .ok f := by
  cases h with
  | lambda hsome hcount hf =>
    rw [compileLambda, if_neg (by simp [hsome, Nat.not_lt.2 hcount])]
    exact seal_of_compiles link_of_links hf
termination_by sizeOf e

end

theorem links_iff {s : Naming} {before : Option Chain} {e : Expr} {c : Chain} :
    link s before e = .ok c ↔ Links s before e c :=
  ⟨links_of_link, link_of_links⟩

theorem compiles_iff {s : Naming} {e : Expr} {f : Formula} :
    compile s e = .ok f ↔ Compiles s e f :=
  ⟨compiles_of_seal links_of_link, seal_of_compiles link_of_links⟩

end DocQuery
