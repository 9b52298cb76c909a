/-
Compiled expressions have the values of what was written.

* `Context.environment` — the environment that the lambdas that are active in a context make;
* `Links.looks` — a formula stands and announces what its expression does;
* `Compiles.sense_eq`, `Links.reached_eq` — evaluating a formula is interpreting its expression
  in the environment of the context;
* `evaluate_eq_interpret` — the same outside of all lambdas.

Design notes: the compiler knows a lambda by its level, and a context binds levels. A lambda that is
entered has the level next to those around it, so its binding hides none of theirs; that is all that
keeps the two in step. A chain of names is compiled from left to right into one lookup, while the
interpretation goes along it; the two are compared after each name.
-/
import DocQuery.Proofs.Formula.Counting
import DocQuery.Proofs.Formula.Interpretation
import DocQuery.Proofs.Formula.Linking
import DocQuery.Proofs.Formula.Tracing

namespace DocQuery

/-! ### Active lambdas -/

namespace Context

/-- The environment that the active lambdas make of the parameters of the lambdas around an
expression, the innermost first. -/
def environment (c : Context) : List (List String) → Environment
  | [] => .outermost
  | parameters :: outer =>
    match c.binding? outer.length with
    | none => c.environment outer
    | some b => (c.environment outer).enter parameters (b.item, b.index)

/-- Whether all the lambdas around an expression are active. -/
def Covers (c : Context) (lambdas : List (List String)) : Prop :=
  ∀ l < lambdas.length, ∃ b, c.binding? l = some b

theorem covers_nil (c : Context) : c.Covers [] := by
  intro l hl
  simp at hl

variable {c : Context} {parameters : List String} {lambdas : List (List String)}

theorem Covers.outer (h : c.Covers (parameters :: lambdas)) : c.Covers lambdas :=
  fun l hl => h l (Nat.lt_succ_of_lt hl)

theorem binding?_bind_self (c : Context) (l : Nat) (n : Node) (i : Nat) :
    (c.bind l n i).binding? l = some ⟨l, n, i⟩ := by
  simp [binding?, bind]

theorem binding?_bind_of_ne (c : Context) {l l' : Nat} (n : Node) (i : Nat) (h : l' ≠ l) :
    (c.bind l n i).binding? l' = c.binding? l' := by
  simp [binding?, bind, h.symm]

theorem Covers.bind (h : c.Covers lambdas) (parameters : List String) (n : Node) (i : Nat) :
    (c.bind lambdas.length n i).Covers (parameters :: lambdas) := by
  intro l hl
  by_cases hself : l = lambdas.length
  · subst hself
    exact ⟨_, c.binding?_bind_self _ n i⟩
  · have hlt : l < lambdas.length := by
      rw [List.length_cons] at hl
      omega
    rw [c.binding?_bind_of_ne n i hself]
    exact h l hlt

theorem environment_bind {l : Nat} (hl : lambdas.length ≤ l) (n : Node) (i : Nat) :
    (c.bind l n i).environment lambdas = c.environment lambdas := by
  induction lambdas with
  | nil => rfl
  | cons parameters outer ih =>
    rw [List.length_cons] at hl
    -- the lambdas around have smaller levels than the one that is bound
    have hother : outer.length ≠ l := by omega
    have houter : outer.length ≤ l := by omega
    rw [environment, environment, c.binding?_bind_of_ne n i hother, ih houter]

/-- A lambda that is entered puts its parameters before those around it. -/
theorem environment_enter (c : Context) (parameters : List String) (lambdas : List (List String))
    (item : Node × Nat) :
    (c.bind lambdas.length item.1 item.2).environment (parameters :: lambdas) =
      (c.environment lambdas).enter parameters item := by
  rw [environment, c.binding?_bind_self, environment_bind Nat.le.refl]

end Context

/-- The value that a lookup begins with, and what is searched for it. -/
def Start.read (c : Context) (start : Start) : Traced Value := do
  Traced.see (unnoticed true (start.searched c) false)
  Traced.ofExcept (start.resolve c)

theorem Start.read_property (c : Context) (v : Vocabulary) (name : String) (scope : Scope) :
    (Start.property name scope).read c = (c.world v).property name scope := by
  cases scope <;> rfl

/-- A name that the compiler has resolved leads to what it stands for in the environment. -/
theorem Naming.read_startOf {s : Naming} {c : Context} (hc : c.Covers s.lambdas) (v : Vocabulary)
    (name : String) :
    (s.startOf name).read c = (c.world v).resolve (c.environment s.lambdas name) := by
  obtain ⟨d, lambdas⟩ := s
  unfold startOf
  induction lambdas with
  | nil => rfl
  | cons parameters outer ih =>
    obtain ⟨b, hb⟩ := hc outer.length (Nat.lt_succ_self _)
    rw [parameterNamed?, Context.environment, hb]
    simp only [Environment.enter]
    -- the innermost lambda with a parameter of this name decides, here and there
    rcases parameters.idxOf? name with _ | _ | k
    · exact ih hc.outer
    · simp [Start.read, Start.resolve, Start.searched, hb]
      rfl
    · simp [Start.read, Start.resolve, Start.searched, hb]
      rfl

/-! ### What shows without any values -/

namespace Chain

/-- Where a chain begins. -/
def position : Chain → Position
  | qualifier _ p | lookup _ _ p | follow _ _ p => p

/-- Whether a chain is looked up as a whole. -/
def IsLookedUp (c : Chain) : Prop :=
  c.formula.position = c.position ∧ c.formula.kind = .found

theorem extend_position (c : Chain) (more : List Step) : (c.extend more).position = c.position := by
  cases c <;> rfl

theorem member_position (c : Chain) (name : String) (more : List Step) :
    (c.member name more).position = c.position := by
  cases c <;> rfl

theorem extend_isLookedUp (c : Chain) (step : Step) (more : List Step) :
    (c.extend (step :: more)).IsLookedUp := by
  cases c with
  | qualifier | lookup => exact ⟨rfl, rfl⟩
  | follow base steps p => cases steps <;> exact ⟨rfl, rfl⟩

theorem member_isLookedUp (c : Chain) (name : String) (more : List Step) :
    (c.member name more).IsLookedUp := by
  cases c with
  | qualifier => exact ⟨rfl, rfl⟩
  | lookup start steps p => exact extend_isLookedUp (.lookup start steps p) _ _
  | follow base steps p => exact extend_isLookedUp (.follow base steps p) _ _

end Chain

/-- What goes on with a chain leaves it where it began. -/
theorem Links.goesOn {s : Naming} {b c : Chain} {e : Expr} (h : Links s (some b) e c) :
    c.position = b.position ∧ c.IsLookedUp := by
  cases h with
  | memberName | memberText | memberIndex =>
    exact ⟨b.member_position _ _, b.member_isLookedUp _ _⟩
  | looseBefore _ hc | looseAfter _ hc => exact hc.goesOn
  | path _ hleft hright =>
    obtain ⟨hposition, hlooked⟩ := hright.goesOn
    exact ⟨hposition.trans hleft.goesOn.1, hlooked⟩
  | through | arrange | positions | custom =>
    exact ⟨b.extend_position _, b.extend_isLookedUp _ _⟩
termination_by sizeOf e

theorem Naming.compileText_eq {s : Naming} {content : String} {p : Position} {f : Formula}
    (h : s.compileText content p = .ok f) :
    ∃ v, f = .constant v p ∧ v.kind = (Expr.text content p).kind s.vocabulary ∧
      ∀ c : Context, (c.world s.vocabulary).text content p = pure v := by
  unfold compileText at h
  split at h
  · rename_i hlookup
    obtain rfl := Except.ok.inj h
    exact ⟨.text content, rfl, by simp [Expr.kind, hlookup]; rfl,
      fun c => by simp [World.text, Context.world, hlookup]⟩
  · rename_i v hlookup
    obtain rfl := Except.ok.inj h
    exact ⟨v, rfl, by simp [Expr.kind, hlookup],
      fun c => by simp [World.text, Context.world, hlookup]⟩
  · simp at h

theorem Naming.compileNumber_eq {s : Naming} {digits : String} {p : Position} {f : Formula}
    (h : s.compileNumber digits p = .ok f) :
    ∃ x, f = .constant (.number x) p ∧ numberOf digits p = pure (.number x) := by
  unfold compileNumber at h
  split at h
  · simp at h
  · split at h
    · simp at h
    · split at h
      · rename_i x hx
        obtain rfl := Except.ok.inj h
        exact ⟨x, rfl, by simp [numberOf, hx]⟩
      · simp at h

theorem FunctionMeaning.build?_looks {p : Position} {meaning : FunctionMeaning} {fs : List Formula}
    {f : Formula} (h : meaning.build? p fs = some f) : f.position = p ∧ f.kind = meaning.kind := by
  unfold build? at h
  split at h <;> first | (obtain rfl := Option.some.inj h; exact ⟨rfl, rfl⟩) | simp at h

theorem BinaryMeaning.build_looks (meaning : BinaryMeaning) (p : Position) (f g : Formula) :
    (meaning.build p f g).position = p ∧
      (meaning.build p f g).kind = meaning.kind f.kind g.kind := by
  cases meaning <;> exact ⟨rfl, rfl⟩

theorem OperandMeaning.build_looks (meaning : OperandMeaning) (p : Position) (f : Formula) :
    (meaning.build p f).position = p ∧ (meaning.build p f).kind = meaning.kind f.kind := by
  cases meaning <;> exact ⟨rfl, rfl⟩

/-- Whether a chain that begins with an expression stands and announces what that does. -/
structure Chain.LooksLike (c : Chain) (v : Vocabulary) (e : Expr) : Prop where
  head : c.position = e.head
  place : c.formula.position = e.place
  kind : c.formula.kind = e.kind v

theorem Naming.beginName_looks (s : Naming) (name : String) (p : Position) :
    (s.beginName name p).LooksLike s.vocabulary (.name name p) := by
  unfold beginName
  split
  · rename_i hq
    exact ⟨rfl, rfl, by simp [Expr.kind, hq]; rfl⟩
  · rename_i hq
    split
    · rename_i hv
      exact ⟨rfl, rfl, by simp [Expr.kind, hq, hv]; rfl⟩
    · rename_i hv
      exact ⟨rfl, rfl, by simp [Expr.kind, hq, hv]; rfl⟩

/-- The chain that begins with an expression shows what that does. -/
theorem Links.looks {s : Naming} {c : Chain} {e : Expr} (h : Links s none e c) :
    c.LooksLike s.vocabulary e := by
  cases h with
  | name n p => exact s.beginName_looks n p
  | text hf =>
    obtain ⟨v, rfl, hkind, -⟩ := s.compileText_eq hf
    exact ⟨rfl, rfl, hkind⟩
  | number hf =>
    obtain ⟨x, rfl, -⟩ := s.compileNumber_eq hf
    exact ⟨rfl, rfl, rfl⟩
  | index => exact ⟨rfl, rfl, rfl⟩
  | group hf =>
    obtain ⟨_, hc⟩ := hf
    exact ⟨rfl, hc.looks.place, hc.looks.kind⟩
  | looseBefore hpath hc | looseAfter hpath hc =>
    obtain ⟨hhead, hplace, hkind⟩ := hc.looks
    constructor
    · rw [Expr.head, if_pos hpath, hhead]
    · rw [Expr.place, if_pos hpath, hplace]
    · rw [Expr.kind, if_pos hpath, hkind]
  | before hpath hmeaning hf | after hpath hmeaning hf =>
    obtain ⟨_, hc⟩ := hf
    constructor
    · rw [Expr.head, if_neg hpath]
      rfl
    · rw [Expr.place, if_neg hpath]
      exact (OperandMeaning.build_looks _ _ _).1
    · rw [Expr.kind, if_neg hpath, hmeaning, Option.elim_some, ← hc.looks.kind]
      exact (OperandMeaning.build_looks _ _ _).2
  | path hpath hleft hright =>
    obtain ⟨hposition, hlooked⟩ := hright.goesOn
    have hhead := hposition.trans hleft.looks.head
    constructor
    · rw [Expr.head, if_pos hpath, hhead]
    · rw [Expr.place, if_pos hpath, hlooked.1, hhead]
    · rw [Expr.kind, if_pos hpath, hlooked.2]
  | binary hpath hmeaning hf hg =>
    obtain ⟨_, hleft⟩ := hf
    obtain ⟨_, hright⟩ := hg
    constructor
    · rw [Expr.head, if_neg hpath]
      rfl
    · rw [Expr.place, if_neg hpath]
      exact (BinaryMeaning.build_looks _ _ _ _).1
    · rw [Expr.kind, if_neg hpath, hmeaning, Option.elim_some, ← hleft.looks.kind,
        ← hright.looks.kind]
      exact (BinaryMeaning.build_looks _ _ _ _).2
  | aggregate hmeaning | aggregateBy hmeaning =>
    constructor
    · rfl
    · rfl
    · rw [Expr.kind, hmeaning]
      rfl
  | call hmeaning _ _ _ hbuild =>
    obtain ⟨hposition, hkind⟩ := FunctionMeaning.build?_looks hbuild
    constructor
    · rfl
    · exact hposition
    · rw [Expr.kind, hmeaning]
      exact hkind
termination_by sizeOf e

/-! ### Operations -/

/-- A formula as the operation around it sees it. -/
def Formula.sense (c : Context) (f : Formula) : Sense :=
  ⟨evaluate c f, f.position, f.kind⟩

theorem Formula.sense_operand (c : Context) (f : Formula) :
    (f.sense c).operand = (evaluate c f >>= fun v => pure ⟨v, f.position⟩) :=
  rfl

section Operations

variable (c : Context) (v : Vocabulary) (p : Position)

theorem evaluateTexts_eq (fs : List Formula) :
    evaluateTexts c fs = Sense.texts (fs.map (Formula.sense c)) := by
  induction fs with
  | nil => rfl
  | cons f fs ih =>
    rw [evaluateTexts, ih]
    rfl

theorem evaluateAs_eq (type : ScalarType) (fs : List Formula) :
    evaluateAs c type fs = Sense.converted c.options type (fs.map (Formula.sense c)) := by
  induction fs with
  | nil => rfl
  | cons f fs ih =>
    rw [evaluateAs, ih]
    rfl

theorem evaluateIndexes_eq (isTracked : Bool) (view : View) (fs : List Formula) :
    evaluateIndexes c isTracked view fs =
      Sense.indexed isTracked view (fs.map (Formula.sense c)) := by
  induction fs generalizing view with
  | nil => rfl
  | cons f fs ih =>
    rw [evaluateIndexes, List.map_cons, Sense.indexed, Formula.sense_operand]
    simp only [bind_assoc, pure_bind, ih]

theorem evaluateAt_eq (isTracked : Bool) (items : List Node) (found : Option Node)
    (fs : List Formula) :
    evaluateAt c isTracked items found fs =
      Sense.located isTracked items found (fs.map (Formula.sense c)) := by
  induction fs generalizing items found with
  | nil => rfl
  | cons f fs ih =>
    rw [evaluateAt_cons, List.map_cons, Sense.located, Formula.sense_operand]
    simp only [bind_assoc, pure_bind]
    refine bind_congr fun v => bind_congr fun index => bind_congr fun _ => ?_
    rcases index.bind fun i => items[i]? with _ | n
    · rfl
    · exact ih ..

theorem OperandMeaning.evaluate_build (meaning : OperandMeaning) (f : Formula) :
    evaluate c (meaning.build p f) = meaning.interpret (c.world v) p (f.sense c) := by
  cases meaning with
  | apply g =>
    rw [build, evaluate, interpret, Formula.sense_operand]
    simp only [bind_assoc, pure_bind]
    rfl
  | assert =>
    rw [build, evaluate]
    rfl

theorem BinaryMeaning.evaluate_build (meaning : BinaryMeaning) (f g : Formula) :
    evaluate c (meaning.build p f g) =
      meaning.interpret (c.world v) p (f.sense c) (g.sense c) := by
  cases meaning with
  | operation o =>
    rw [build, evaluate, interpret, Formula.sense_operand, Formula.sense_operand]
    simp only [bind_assoc, pure_bind]
    rfl
  | both | either | fallback =>
    rw [build, evaluate]
    rfl
  | custom o =>
    rw [build, evaluate, evaluateAs_eq]
    rfl

theorem FunctionMeaning.evaluate_build? {meaning : FunctionMeaning} {fs : List Formula}
    {f : Formula} (h : meaning.build? p fs = some f) :
    evaluate c f = meaning.interpret (c.world v) p (fs.map (Formula.sense c)) := by
  unfold build? at h
  split at h
  · obtain rfl := Option.some.inj h
    rw [evaluate, List.map_singleton, interpret, Formula.sense_operand]
    simp only [bind_assoc, pure_bind]
    rfl
  · obtain rfl := Option.some.inj h
    rw [evaluate]
    rfl
  · obtain rfl := Option.some.inj h
    rw [evaluate, evaluateTexts_eq]
    rfl
  · obtain rfl := Option.some.inj h
    rw [evaluate]
    rfl
  · obtain rfl := Option.some.inj h
    rw [evaluate]
    rfl
  · obtain rfl := Option.some.inj h
    rw [evaluate, evaluateAs_eq]
    rfl
  · simp at h

end Operations

/-! ### Lookups -/

theorem View.ofValue_toValue (path : Path) (view : View) : ofValue path view.toValue = view := by
  match view with
  | single (some n) | single none | many items => rfl

/-- A step of a formula as a step of an interpretation. -/
def Step.walk (c : Context) (step : Step) : Walk :=
  fun isTracked view => evaluateStep c isTracked view step

/-- The value of the lambda of a formula for an item. -/
def Formula.interpretFor (c : Context) (lambda : Nat) (body : Formula) (item : Node × Nat) :
    Traced Operand :=
  (body.sense (c.bind lambda item.1 item.2)).operand

theorem Step.walk_member (c : Context) (name : String) :
    (Step.member name).walk c = .member name := by
  funext isTracked view
  rw [walk, evaluateStep]
  rfl

theorem Step.walk_index (c : Context) (fs : List Formula) :
    (Step.index fs).walk c = .index (fs.map (Formula.sense c)) := by
  funext isTracked view
  rw [walk, evaluateStep, evaluateIndexes_eq]
  rfl

theorem Step.walk_at (c : Context) (fs : List Formula) (p : Position) :
    (Step.at fs p).walk c = .positions (fs.map (Formula.sense c)) p := by
  funext isTracked view
  rw [walk, evaluateStep]
  simp only [evaluateAt_eq]
  rfl

theorem Step.walk_arrange (c : Context) (arrangement : Arrangement) (p : Position) :
    (Step.arrange arrangement p).walk c = .arrange arrangement p := by
  funext isTracked view
  rw [walk, evaluateStep]
  rfl

theorem Step.walk_through (c : Context) (selector : LambdaSelector) (lambda : Nat) (body : Formula)
    (p : Position) :
    (Step.through selector lambda body p).walk c =
      .through selector (body.interpretFor c lambda) p := by
  funext isTracked view
  rw [walk, evaluateStep]
  rfl

namespace Chain

/-- The value that the steps of a lookup lead to from a first value on. -/
def along (c : Context) (isTracked : Bool) (first : Value) : List Step → Traced Value
  | [] => pure first
  | step :: steps => do
    let view := View.ofValue (.root c.document.id) first
    Traced.see (if isTracked then sightingsOf view.nodes false else [])
    let next ← step.walk c isTracked view
    along c isTracked next.toValue steps

theorem along_append (c : Context) (isTracked : Bool) (first : Value) (steps more : List Step) :
    along c isTracked first (steps ++ more) =
      (along c isTracked first steps >>= fun v => along c isTracked v more) := by
  induction steps generalizing first with
  | nil => rw [List.nil_append, along, pure_bind]
  | cons step steps ih => simp only [List.cons_append, along, ih, bind_assoc]

theorem along_eq (c : Context) (isTracked : Bool) (view : View) (steps : List Step) :
    along c isTracked view.toValue steps =
      (evaluateSteps c isTracked view steps >>= fun view => pure view.toValue) := by
  induction steps generalizing view with
  | nil => rfl
  | cons step steps ih =>
    simp only [along, evaluateSteps, View.ofValue_toValue, ih, bind_assoc]
    rfl

/-- A formula looks at whether there are steps at all; going along them need not. -/
theorem along_of_steps (c : Context) (isTracked : Bool) (first : Value) (steps : List Step) :
    (if steps.isEmpty then pure first
      else
        evaluateSteps c isTracked (.ofValue (.root c.document.id) first) steps >>= fun view =>
          pure view.toValue) = along c isTracked first steps := by
  cases steps with
  | nil => rfl
  | cons step steps =>
    simp only [List.isEmpty_cons, Bool.false_eq_true, if_false, along, evaluateSteps, bind_assoc,
      along_eq]
    rfl

/-- What a chain has reached. -/
def reached (c : Context) : Chain → Traced Reached
  | qualifier q _ => pure (.qualifier q)
  | lookup start steps _ => do
    let first ← start.read c
    let v ← along c true first steps
    pure (.value v true)
  | follow base steps _ => do
    let first ← evaluate c base
    let v ← along c false first steps
    pure (.value v false)

variable (c : Context) (v : Vocabulary)

theorem read_start (q : Qualifier) : q.start.read c = pure ((c.world v).root q) := by
  cases q <;> rfl

/-- The value of a chain is what it has reached in the end. -/
theorem evaluate_formula (chain : Chain) :
    evaluate c chain.formula = chain.reached c >>= Reached.finish (c.world v) := by
  match chain with
  | qualifier q p =>
    rw [formula, evaluate]
    cases q <;> rfl
  | lookup start steps p =>
    rw [formula, evaluate]
    simp only [reached, Start.read, ← along_of_steps, bind_assoc, pure_bind, Reached.finish,
      if_true]
    cases steps with
    | nil => simp only [List.isEmpty_nil, if_true, pure_bind]
    | cons step steps =>
      simp only [List.isEmpty_cons, Bool.false_eq_true, if_false, bind_assoc, pure_bind]
  | follow base [] p =>
    simp only [formula, reached, along, bind_assoc, pure_bind, Reached.finish]
    exact (bind_pure _).symm
  | follow base (step :: steps) p =>
    rw [formula, evaluate]
    · simp only [reached, ← along_of_steps, List.isEmpty_cons, Bool.false_eq_true, if_false,
        bind_assoc, pure_bind, Reached.finish]
      rfl
    · simp

theorem reached_ofFormula (p : Position) (f : Formula) :
    (ofFormula p f).reached c = (evaluate c f).asReached := by
  simp only [ofFormula, reached, along, pure_bind]
  rfl

theorem reached_extend (chain : Chain) (step : Step) :
    (chain.extend [step]).reached c =
      chain.reached c >>= Reached.step (c.world v) (step.walk c) := by
  cases chain with
  | qualifier q p =>
    simp only [extend, reached, read_start c v, along, bind_assoc, pure_bind]
    rfl
  | lookup start steps p =>
    simp only [extend, reached, along_append, along, bind_assoc, pure_bind]
    rfl
  | follow base steps p =>
    simp only [extend, reached, along_append, along, bind_assoc, pure_bind]
    rfl

theorem reached_member (chain : Chain) (name : String) :
    (chain.member name []).reached c = chain.reached c >>= Reached.member (c.world v) name := by
  cases chain with
  | qualifier q p =>
    simp only [member, reached, Start.read_property c v, along, pure_bind]
    rfl
  | lookup start steps p =>
    refine (reached_extend c v (.lookup start steps p) (.member name)).trans ?_
    simp only [Step.walk_member, reached, bind_assoc, pure_bind]
    rfl
  | follow base steps p =>
    refine (reached_extend c v (.follow base steps p) (.member name)).trans ?_
    simp only [Step.walk_member, reached, bind_assoc, pure_bind]
    rfl

theorem member_eq_extend (chain : Chain) (name : String) (more : List Step) :
    chain.member name more = (chain.member name []).extend more := by
  cases chain with
  | qualifier q p => rfl
  | lookup start steps p => simp [member, extend]
  | follow base steps p => simp [member, extend]

/-- What the chain before an expression has reached, if there is one. -/
def reachedBefore (c : Context) : Option Chain → Traced (Option Reached)
  | none => pure none
  | some chain => do
    let r ← chain.reached c
    pure (some r)

end Chain

theorem Naming.reached_beginName {s : Naming} {c : Context} (hc : c.Covers s.lambdas)
    (name : String) (p : Position) :
    (s.beginName name p).reached c =
      (c.world s.vocabulary).begin (c.environment s.lambdas) name := by
  unfold beginName World.begin
  rcases Qualifier.ofName? name with _ | q
  · simp only [Context.world]
    rcases s.vocabulary.constants.lookup name with _ | x
    · simp only [Chain.reached, Chain.along, pure_bind]
      rw [s.read_startOf hc s.vocabulary]
      rfl
    · rfl
  · rfl

/-! ### Expressions -/

theorem evaluate_aggregate (c : Context) (a : Aggregate) (f : Formula) (p : Position) :
    evaluate c (.aggregate a f p) = a.interpret (f.sense c) none := by
  rw [evaluate]
  rfl

theorem evaluate_aggregateBy (c : Context) (a : Aggregate) (f : Formula) (l : Nat) (body : Formula)
    (p : Position) :
    evaluate c (.aggregateBy a f l body p) =
      a.interpret (f.sense c) (some (body.interpretFor c l)) := by
  rw [evaluate]
  rfl

/-- A formula has the sense of the expression that it has been compiled from, if the chain of the
expression reaches the same. -/
theorem Compiles.sense_eq {c : Context} {s : Naming} {ρ : Environment} {e : Expr} {f : Formula}
    (hlinks : ∀ {chain}, Links s none e chain →
      chain.reached c = Chain.reachedBefore c none >>= fun r =>
        e.reach (c.world s.vocabulary) ρ r)
    (h : Compiles s e f) :
    f.sense c =
      e.sense (c.world s.vocabulary) (e.reach (c.world s.vocabulary) ρ none) := by
  cases h with
  | sealed _ hc =>
    rw [Formula.sense, Chain.evaluate_formula c s.vocabulary, hlinks hc, Chain.reachedBefore,
      pure_bind, hc.looks.place, hc.looks.kind]
    rfl

mutual

/-- A chain reaches what its expression reaches in the environment of the active lambdas. -/
theorem Links.reached_eq {c : Context} {s : Naming} {before : Option Chain} {e : Expr}
    {chain : Chain} (h : Links s before e chain) (hc : c.Covers s.lambdas) :
    chain.reached c = Chain.reachedBefore c before >>= fun r =>
      e.reach (c.world s.vocabulary) (c.environment s.lambdas) r := by
  cases h with
  | name n p =>
    rw [s.reached_beginName hc]
    rfl
  | memberName | memberText =>
    rw [Chain.reached_member c s.vocabulary, Chain.reachedBefore]
    simp only [bind_assoc, pure_bind]
    rfl
  | text hf =>
    obtain ⟨v, rfl, -, htext⟩ := s.compileText_eq hf
    rw [Chain.reached_ofFormula, Chain.reachedBefore, pure_bind, Expr.reach]
    simp only [htext]
    rfl
  | number hf =>
    obtain ⟨x, rfl, hnumber⟩ := s.compileNumber_eq hf
    rw [Chain.reached_ofFormula, Chain.reachedBefore, pure_bind, Expr.reach]
    simp only [hnumber]
    rfl
  | index hfs =>
    -- the name is looked up first, and the positions are one step from there
    refine (Chain.reached_extend c s.vocabulary (.lookup (s.startOf _) [] _) (.index _)).trans ?_
    rw [Step.walk_index, hfs.map_sense_eq hc]
    simp only [Chain.reached, Chain.along, Chain.reachedBefore, Expr.reach, bind_assoc, pure_bind,
      s.read_startOf hc s.vocabulary]
  | memberIndex hfs =>
    rw [Chain.member_eq_extend, Chain.reached_extend c s.vocabulary,
      Chain.reached_member c s.vocabulary, Step.walk_index, hfs.map_sense_eq hc]
    simp only [Chain.reachedBefore, Expr.reach, bind_assoc, pure_bind]
  | group hf =>
    have hsense := hf.sense_eq fun hlinks => hlinks.reached_eq hc
    rw [Chain.reached_ofFormula, Chain.reachedBefore, pure_bind, Expr.reach]
    simp only [← hsense]
    rfl
  | looseBefore hpath hlinks | looseAfter hpath hlinks =>
    rw [hlinks.reached_eq hc]
    simp only [Expr.reach, if_pos hpath]
  | before hpath hmeaning hf =>
    have hsense := hf.sense_eq fun hlinks => hlinks.reached_eq hc
    rw [Chain.reached_ofFormula, OperandMeaning.evaluate_build c s.vocabulary, hsense,
      Chain.reachedBefore, pure_bind]
    exact (Expr.reach_before hpath hmeaning).symm
  | after hpath hmeaning hf =>
    have hsense := hf.sense_eq fun hlinks => hlinks.reached_eq hc
    rw [Chain.reached_ofFormula, OperandMeaning.evaluate_build c s.vocabulary, hsense,
      Chain.reachedBefore, pure_bind]
    exact (Expr.reach_after hpath hmeaning).symm
  | path hpath hleft hright =>
    rw [hright.reached_eq hc, Chain.reachedBefore, hleft.reached_eq hc]
    simp only [Expr.reach, if_pos hpath, bind_assoc, pure_bind]
  | binary hpath hmeaning hf hg =>
    have hleft := hf.sense_eq fun hlinks => hlinks.reached_eq hc
    have hright := hg.sense_eq fun hlinks => hlinks.reached_eq hc
    rw [Chain.reached_ofFormula, BinaryMeaning.evaluate_build c s.vocabulary, hleft, hright,
      Chain.reachedBefore, pure_bind]
    exact (Expr.reach_binary hpath hmeaning).symm
  | aggregate hmeaning _ hf =>
    have hsense := hf.sense_eq fun hlinks => hlinks.reached_eq hc
    rw [Chain.reached_ofFormula, evaluate_aggregate, hsense, Chain.reachedBefore, pure_bind]
    exact (Expr.reach_aggregate hmeaning).symm
  | aggregateBy hmeaning _ hf hbody =>
    have hsense := hf.sense_eq fun hlinks => hlinks.reached_eq hc
    rw [Chain.reached_ofFormula, evaluate_aggregateBy, hsense, hbody.interpretFor_eq hc,
      Chain.reachedBefore, pure_bind]
    exact (Expr.reach_aggregateBy hmeaning).symm
  | call hmeaning hne _ hfs hbuild =>
    rw [Chain.reached_ofFormula, FunctionMeaning.evaluate_build? c s.vocabulary _ hbuild,
      hfs.map_sense_eq hc, Chain.reachedBefore, pure_bind]
    exact (Expr.reach_call hmeaning hne).symm
  | through hmeaning hbody =>
    rw [Chain.reached_extend c s.vocabulary, Step.walk_through, hbody.interpretFor_eq hc,
      Chain.reachedBefore, bind_assoc]
    simp only [pure_bind]
    exact bind_congr fun r => (Expr.reach_through hmeaning).symm
  | arrange hmeaning =>
    rw [Chain.reached_extend c s.vocabulary, Step.walk_arrange, Chain.reachedBefore, bind_assoc]
    simp only [pure_bind]
    exact bind_congr fun r => (Expr.reach_arrange hmeaning).symm
  | positions hmeaning hfs =>
    rw [Chain.reached_extend c s.vocabulary, Step.walk_at, hfs.map_sense_eq hc,
      Chain.reachedBefore, bind_assoc]
    simp only [pure_bind]
    exact bind_congr fun r => (Expr.reach_positions hmeaning).symm
  | custom hmeaning =>
    rw [Chain.reached_extend c s.vocabulary, Step.walk_arrange, Chain.reachedBefore, bind_assoc]
    simp only [pure_bind]
    exact bind_congr fun r => (Expr.reach_custom hmeaning).symm

/-- Formulas have the senses of the expressions that they have been compiled from. -/
theorem CompilesAll.map_sense_eq {c : Context} {s : Naming} {es : List Expr}
    {fs : List Formula} (h : CompilesAll s es fs) (hc : c.Covers s.lambdas) :
    fs.map (Formula.sense c) =
      (readArguments (c.world s.vocabulary) (c.environment s.lambdas) es).map (·.sense) := by
  cases h with
  | nil => rfl
  | cons hf hfs =>
    rw [List.map_cons, hf.sense_eq fun hlinks => hlinks.reached_eq hc,
      hfs.map_sense_eq hc]
    rfl

/-- Entering a lambda for an item binds its parameters in the environment. -/
theorem CompilesLambda.interpretFor_eq {c : Context} {s : Naming} {function : String} {e : Expr}
    {body : Formula} (h : CompilesLambda s function e body) (hc : c.Covers s.lambdas) :
    body.interpretFor c s.lambdas.length =
      fun item => e.interpretFor (c.world s.vocabulary) (c.environment s.lambdas) item := by
  cases h with
  | @lambda _ _ parameters inner _ _ _ _ hf =>
    funext item
    -- inside, this lambda is active as well, at the level that it has been compiled with
    have hinner := hc.bind (parameters.map (·.name)) item.1 item.2
    have hsense := hf.sense_eq fun {chain} (hlinks : Links (s.enter _) none _ chain) =>
      hlinks.reached_eq hinner
    rw [Formula.interpretFor, hsense, Expr.interpretFor]
    simp only [Naming.enter, Context.environment_enter]
    rfl

end

/-- An expression that is compiled outside of lambdas has the value that it has where names are
those of properties. -/
theorem evaluate_eq_interpret {d : Dialect} {e : Expr} {f : Formula}
    (h : compile ⟨d, []⟩ e = .ok f) (c : Context) :
    evaluate c f = e.interpret (c.world d.vocabulary) .outermost :=
  congrArg Sense.value
    ((compiles_iff.1 h).sense_eq fun hlinks => hlinks.reached_eq c.covers_nil)

end DocQuery
