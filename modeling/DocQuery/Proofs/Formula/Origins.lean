/-
Where the lookups of an expression begin.

* `LookupOrigin` — a parameter, a literal, a call, a qualifier, or a name that is searched
  everywhere;
* `Expr.origins` — the origins of all lookups in an expression, those in lambdas, in arguments and
  between brackets among them;
* `Environment.Binds` — an environment in which exactly the given names are parameters;
* `Reached.IsFrom`, `Expr.reach_isFrom` — a qualifier that has been reached is among the origins.

Design notes: a qualifier is a word wherever a lookup begins with it alone, even inside a lambda
with a parameter of that name. Before brackets it is none: there a name is that of a parameter or of
a property. The names after a point go on with a lookup, so they are no origins.
-/
import DocQuery.Proofs.Formula.Interpretation
import DocQuery.Proofs.Formula.Tracing

namespace DocQuery

/-- Where a lookup begins. -/
inductive LookupOrigin where
  /-- a parameter of a lambda around it -/
  | parameter
  /-- a number, a text or a constant -/
  | literal
  /-- a call of a function -/
  | call
  /-- `this` or `parent`, alone or before a point -/
  | qualifier (qualifier : Qualifier)
  /-- a name that is searched in all documents -/
  | property (name : String)
deriving DecidableEq, Repr

namespace LookupOrigin

/-- Whether a lookup that begins there reads the current document. -/
def readsRoot : LookupOrigin → Bool
  | qualifier .this | property _ => true
  | parameter | literal | call | qualifier .parent => false

/-- Whether a lookup that begins there reads the documents that the current one inherits from. -/
def readsAncestors : LookupOrigin → Bool
  | qualifier .parent | property _ => true
  | parameter | literal | call | qualifier .this => false

/-- The origin that a name is which is no word, inside lambdas with these parameters. -/
def ofName (parameters : List String) (name : String) : LookupOrigin :=
  if name ∈ parameters then parameter else property name

end LookupOrigin

/-- The origin that a name by itself is, inside lambdas with these parameters. -/
def Vocabulary.originOf (v : Vocabulary) (parameters : List String) (name : String) :
    LookupOrigin :=
  match Qualifier.ofName? name with
  | some q => .qualifier q
  | none =>
    if (v.constants.lookup name).isSome then .literal else .ofName parameters name

mutual

/-- The origins of the lookups in an expression inside lambdas with these parameters. The expression
begins one itself only at the head of a chain. -/
def Expr.origins (v : Vocabulary) (parameters : List String) (isHead : Bool) :
    Expr → List LookupOrigin
  | .name n _ => if isHead then [v.originOf parameters n] else []
  | .number _ _ | .text _ _ => if isHead then [.literal] else []
  | .binary o left right _ =>
    left.origins v parameters (isHead || o.name != pathOperator) ++
      right.origins v parameters (o.name != pathOperator)
  | .before o operand _ | .after o operand _ =>
    operand.origins v parameters (isHead || o.name != pathOperator)
  | .group inner _ => inner.origins v parameters true
  | .call _ arguments _ => (if isHead then [.call] else []) ++ originsOfAll v parameters arguments
  | .index n indexes _ =>
    (if isHead then [.ofName parameters n] else []) ++ originsOfAll v parameters indexes
  | .lambda inner body _ => body.origins v (inner.map (·.name) ++ parameters) true

/-- The origins of the lookups in several expressions. -/
def originsOfAll (v : Vocabulary) (parameters : List String) : List Expr → List LookupOrigin
  | [] => []
  | e :: es => e.origins v parameters true ++ originsOfAll v parameters es

end

/-! ### Environments -/

namespace Environment

/-- Whether the names in `parameters`, and no others, stand for items and their positions. -/
def Binds (ρ : Environment) (parameters : List String) : Prop :=
  ∀ name, (name ∈ parameters → ∀ n, ρ name ≠ .property n) ∧
    (name ∉ parameters → ρ name = .property name)

theorem binds_outermost : outermost.Binds [] :=
  fun _ => ⟨fun h => absurd h List.not_mem_nil, fun _ => rfl⟩

variable {ρ : Environment} {parameters : List String}

theorem Binds.enter (h : ρ.Binds parameters) (inner : List String) (item : Node × Nat) :
    (ρ.enter inner item).Binds (inner ++ parameters) := by
  intro name
  unfold Environment.enter
  rcases hi : inner.idxOf? name with _ | _ | i
  · -- the name is none of the inner parameters
    have hname : name ∉ inner := List.idxOf?_eq_none_iff.1 hi
    simp only [List.mem_append, hname, false_or]
    exact h name
  all_goals
    have hname : name ∈ inner := by
      by_contra hname
      rw [List.idxOf?_eq_none_iff.2 hname] at hi
      cases hi
    refine ⟨fun _ n => nofun, fun hnot => ?_⟩
    exact absurd (List.mem_append_left _ hname) hnot

/-- A parameter is an item or a position, and any other name a property that is among the
origins. -/
theorem Binds.cases (h : ρ.Binds parameters) (name : String) :
    (∀ n, ρ name ≠ .property n) ∨
      ρ name = .property name ∧ LookupOrigin.ofName parameters name = .property name := by
  by_cases hname : name ∈ parameters
  · exact .inl ((h name).1 hname)
  · exact .inr ⟨(h name).2 hname, if_neg hname⟩

end Environment

/-! ### Qualifiers that are reached -/

/-- Whether a qualifier that has been reached is one of the origins that are allowed. -/
def Reached.IsFrom (allowed : LookupOrigin → Prop) : Reached → Prop
  | qualifier q => allowed (.qualifier q)
  | value _ _ => True

section Reaching

variable {allowed : LookupOrigin → Prop} {w : World} {ρ : Environment} {r next : Reached}

theorem Reached.isFrom_of_step {walk : Walk} (h : (r.step w walk).outcome = .ok next) :
    next.IsFrom allowed := by
  have hvalue : ∃ v isTracked, next = .value v isTracked := by
    cases r <;>
    · obtain ⟨_, -, h⟩ := Traced.outcome_bind_eq_ok_iff.1 h
      obtain ⟨_, -, h⟩ := Traced.outcome_bind_eq_ok_iff.1 h
      exact ⟨_, _, (Except.ok.inj h).symm⟩
  obtain ⟨v, isTracked, rfl⟩ := hvalue
  trivial

theorem Reached.isFrom_of_member {name : String} (h : (r.member w name).outcome = .ok next) :
    next.IsFrom allowed := by
  cases r with
  | qualifier q =>
    obtain ⟨_, -, h⟩ := Traced.outcome_bind_eq_ok_iff.1 h
    obtain rfl := Except.ok.inj h
    trivial
  | value v isTracked => exact isFrom_of_step h

theorem Reached.isFrom_of_select {name : String} {p : Position} {arguments : List Argument}
    (h : (r.select w name p arguments).outcome = .ok next) : next.IsFrom allowed := by
  unfold select at h
  split at h
  · cases h
  · split at h
    all_goals first | exact isFrom_of_step h | cases h

theorem Traced.isFrom_of_asReached {x : Traced Value} (h : x.asReached.outcome = .ok r) :
    r.IsFrom allowed := by
  obtain ⟨_, -, h⟩ := Traced.outcome_bind_eq_ok_iff.1 h
  obtain rfl := Except.ok.inj h
  trivial

theorem World.isFrom_of_begin (parameters : List String) {name : String}
    (hallowed : allowed (w.vocabulary.originOf parameters name))
    (h : (w.begin ρ name).outcome = .ok r) : r.IsFrom allowed := by
  unfold begin at h
  rw [Vocabulary.originOf] at hallowed
  split at h
  · rename_i q hq
    obtain rfl := Except.ok.inj h
    simp only [hq] at hallowed
    exact hallowed
  · split at h
    · obtain rfl := Except.ok.inj h
      trivial
    · obtain ⟨_, -, h⟩ := Traced.outcome_bind_eq_ok_iff.1 h
      obtain rfl := Except.ok.inj h
      trivial

/-- A qualifier that has been reached is among the origins. -/
theorem Expr.reach_isFrom {parameters : List String} {before : Option Reached} (e : Expr)
    (hallowed : ∀ o ∈ e.origins w.vocabulary parameters before.isNone, allowed o)
    (h : (e.reach w ρ before).outcome = .ok r) : r.IsFrom allowed := by
  match e with
  | .name n _ =>
    cases before with
    | none => exact World.isFrom_of_begin parameters (hallowed _ (by simp [origins])) h
    | some b => exact Reached.isFrom_of_member h
  | .text content p =>
    cases before with
    | none => exact Traced.isFrom_of_asReached h
    | some b => exact Reached.isFrom_of_member h
  | .number digits p =>
    cases before with
    | none => exact Traced.isFrom_of_asReached h
    | some b => cases h
  | .index n indexes _ =>
    cases before with
    | none =>
      obtain ⟨v, -, h⟩ := Traced.outcome_bind_eq_ok_iff.1 h
      exact Reached.isFrom_of_step h
    | some b =>
      obtain ⟨b', -, h⟩ := Traced.outcome_bind_eq_ok_iff.1 h
      exact Reached.isFrom_of_step h
  | .group inner p =>
    cases before with
    | none => exact Traced.isFrom_of_asReached h
    | some b => cases h
  | .lambda _ _ p => cases h
  | .before o operand p | .after o operand p =>
    rw [reach.eq_def] at h
    simp only at h
    split at h
    · rename_i hpath
      exact operand.reach_isFrom (by simpa [origins, hpath] using hallowed) h
    · split at h
      · exact Traced.isFrom_of_asReached h
      · cases h
  | .binary o left right p =>
    rw [reach.eq_def] at h
    simp only at h
    split at h
    · rename_i hpath
      obtain ⟨b, -, h⟩ := Traced.outcome_bind_eq_ok_iff.1 h
      have hright : ∀ o ∈ right.origins w.vocabulary parameters (some b).isNone, allowed o := by
        intro o ho
        refine hallowed o (List.mem_append_right _ ?_)
        simpa [hpath] using ho
      exact right.reach_isFrom hright h
    · split at h
      · exact Traced.isFrom_of_asReached h
      · cases h
  | .call n arguments p =>
    cases before with
    | none => exact Traced.isFrom_of_asReached h
    | some b => exact Reached.isFrom_of_select h

end Reaching

end DocQuery
