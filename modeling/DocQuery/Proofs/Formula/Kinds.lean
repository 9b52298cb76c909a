/-
Formulas have values of the types that they announce.

* `Formula.parts` — a formula and all formulas inside it;
* `Kind.Fits` — a value is of the scalar type that is announced, if one is;
* `Vocabulary.KeepsKinds` — the operations that a vocabulary adds have values that fit;
* `evaluate_fits` — so have the formulas that are compiled with such a vocabulary;
* `compiled_kinds_hold` — in the standard vocabulary every part of a compiled expression has.

Design notes: most formulas have the kind of what they compute last, whatever their operands are.
Only an assertion and an alternative hand on the kind of an operand, so only there the argument goes
into the formula. What a vocabulary adds may announce anything, and so it is asked to keep its word.
-/
import DocQuery.Formula.Evaluate
import DocQuery.Proofs.Formula.Linking
import DocQuery.Proofs.Formula.Tracing

namespace DocQuery

/-- The scalar type of a computed value. What stands in a document has none. -/
def Value.scalarType? : Value → Option ScalarType
  | .boolean _ => some .boolean
  | .number _ => some .number
  | .text _ => some .text
  | .moment _ => some .moment
  | .undefined | .null | .node _ | .nodes _ => none

/-- Whether a value is of the scalar type that is announced, if one is. -/
def Kind.Fits (k : Kind) (v : Value) : Prop :=
  ∀ type, k.type? = some type → v.scalarType? = some type

/-! ### Functions and operators -/

section Functions

variable {options : Options} {v : Value} {position : Position}

theorem Kind.fits_any (v : Value) : Kind.any.Fits v := by
  intro type h
  simp [Kind.type?] at h

theorem Kind.fits_found (v : Value) : Kind.found.Fits v := by
  intro type h
  simp [Kind.type?] at h

theorem Value.kind_fits (v : Value) : v.kind.Fits v := by
  intro type h
  cases v <;> exact h

/-- What a value is converted to has the type that was asked for. -/
theorem Value.expect_scalarType? {type : ScalarType} {w : Value}
    (h : v.expect options type position = .ok w) : w.scalarType? = some type := by
  cases type <;>
  · obtain ⟨x, -, rfl⟩ := Except.map_eq_ok_iff.1 h
    rfl

theorem Value.convert?_scalarType? {type : ScalarType} {w : Value}
    (h : v.convert? options type = some w) : w.scalarType? = some type :=
  expect_scalarType? (Except.toOption_eq_some_iff.1 h)

theorem UnaryFunction.run_fits {f : UnaryFunction} {a : Operand}
    (h : f.run options a = .ok v) : f.kind.Fits v := by
  intro type htype
  cases f with
  | lower | upper | trim =>
    obtain ⟨s, -, h⟩ := Except.bind_eq_ok_iff.1 h
    obtain rfl := Except.ok.inj h
    exact htype
  | isNull | isUndefined | hasValue =>
    obtain rfl := Except.ok.inj h
    exact htype
  | negate | not | len | toInt | toDouble | toText | toBoolean | toMoment | abs | isEven | isOdd =>
    obtain ⟨x, -, rfl⟩ := Except.map_eq_ok_iff.1 h
    exact htype

theorem BinaryOperation.run_fits {o : BinaryOperation} {a b : Operand}
    (h : o.run options position a b = .ok v) : o.kind.Fits v := by
  intro type htype
  cases o with
  | sum => exact Kind.fits_any v type htype
  | arithmetic operator =>
    obtain ⟨x, -, h⟩ := Except.bind_eq_ok_iff.1 h
    obtain ⟨y, -, h⟩ := Except.bind_eq_ok_iff.1 h
    obtain ⟨z, -, h⟩ := Except.bind_eq_ok_iff.1 h
    obtain rfl := Except.ok.inj h
    exact htype
  | equal | unequal =>
    obtain rfl := Except.ok.inj h
    exact htype
  | relation r =>
    obtain ⟨o, -, rfl⟩ := Except.map_eq_ok_iff.1 h
    exact htype

end Functions

/-! ### Aggregates -/

/-- The type of the value that an aggregate will have, as far as it always has one. -/
def Tally.kind : Tally → Kind
  | .count _ | .sum _ => .number
  | .any _ | .all _ => .boolean
  | .average _ _ | .extreme _ _ => .any

theorem Tally.result_fits (t : Tally) : t.kind.Fits t.result := by
  intro type h
  cases t with
  | count | any | all | sum => exact h
  | average | extreme => exact Kind.fits_any _ type h

theorem Tally.kind_start (a : Aggregate) : a.start.kind = a.kind := by
  cases a <;> rfl

theorem Tally.kind_add {t t' : Tally} {a : Operand} {goesOn : Bool}
    (h : t.add a = .ok (t', goesOn)) : t'.kind = t.kind := by
  cases t with
  | any | all =>
    obtain ⟨b, -, h⟩ := Except.map_eq_ok_iff.1 h
    rcases b <;>
    · obtain ⟨rfl, -⟩ := Prod.mk.injEq .. ▸ h
      rfl
  | count | sum | average | extreme =>
    obtain ⟨x, -, h⟩ := Except.map_eq_ok_iff.1 h
    obtain ⟨rfl, -⟩ := Prod.mk.injEq .. ▸ h
    rfl

theorem Tally.kind_collect {valueOf : Node × Nat → Traced Operand} {items : List (Node × Nat)}
    {t t' : Tally} (h : (t.collect valueOf items).outcome = .ok t') : t'.kind = t.kind := by
  induction items generalizing t with
  | nil =>
    obtain rfl := Except.ok.inj h
    rfl
  | cons item items ih =>
    rw [collect] at h
    obtain ⟨a, -, h⟩ := Traced.outcome_bind_eq_ok_iff.1 h
    obtain ⟨⟨next, goesOn⟩, hnext, h⟩ := Traced.outcome_bind_eq_ok_iff.1 h
    have hkind : next.kind = t.kind := kind_add hnext
    simp only at h
    split at h
    · exact (ih h).trans hkind
    · obtain rfl := Except.ok.inj h
      exact hkind

theorem Aggregate.runWith_fits {a : Aggregate} {valueOf : Node × Nat → Traced Operand}
    {items : List Node} {v : Value} (h : (a.runWith valueOf items).outcome = .ok v) :
    a.kind.Fits v := by
  obtain ⟨t, ht, h⟩ := Traced.outcome_bind_eq_ok_iff.1 h
  obtain rfl := Except.ok.inj h
  rw [← Tally.kind_start a, ← Tally.kind_collect ht]
  exact t.result_fits

theorem Aggregate.run_fits {a : Aggregate} {position : Position} {items : List Node} {v : Value}
    (h : (a.run position items).outcome = .ok v) : a.kind.Fits v := by
  cases a with
  | count | any =>
    obtain rfl := Except.ok.inj h
    exact fun type htype => htype
  | all | sum | average | min | max => exact runWith_fits h

/-! ### Formulas -/

mutual

/-- A formula and all formulas inside it. -/
def Formula.parts : Formula → List Formula
  | .constant v p => [.constant v p]
  | .apply f operand p => .apply f operand p :: operand.parts
  | .assert operand p => .assert operand p :: operand.parts
  | .binary o left right p => .binary o left right p :: (left.parts ++ right.parts)
  | .both left right p => .both left right p :: (left.parts ++ right.parts)
  | .either left right p => .either left right p :: (left.parts ++ right.parts)
  | .fallback value alternative p =>
    .fallback value alternative p :: (value.parts ++ alternative.parts)
  | .test t whole part p => .test t whole part p :: (whole.parts ++ part.parts)
  | .concatenate fs p => .concatenate fs p :: Formula.partsOfAll fs
  | .choose condition yes no p =>
    .choose condition yes no p :: (condition.parts ++ yes.parts ++ no.parts)
  | .now p => [.now p]
  | .aggregate a collection p => .aggregate a collection p :: collection.parts
  | .aggregateBy a collection lambda body p =>
    .aggregateBy a collection lambda body p :: (collection.parts ++ body.parts)
  | .lookup start steps p => .lookup start steps p :: Formula.partsOfSteps steps
  | .follow base steps p => .follow base steps p :: (base.parts ++ Formula.partsOfSteps steps)
  | .operation o arguments p => .operation o arguments p :: Formula.partsOfAll arguments

/-- Several formulas and all formulas inside them. -/
def Formula.partsOfAll : List Formula → List Formula
  | [] => []
  | f :: fs => f.parts ++ Formula.partsOfAll fs

/-- The formulas inside a step. -/
def Step.parts : Step → List Formula
  | .member _ | .arrange _ _ => []
  | .index indexes | .at indexes _ => Formula.partsOfAll indexes
  | .through _ _ body _ => body.parts

/-- The formulas inside the steps of a lookup. -/
def Formula.partsOfSteps : List Step → List Formula
  | [] => []
  | step :: steps => step.parts ++ Formula.partsOfSteps steps

end

theorem Formula.mem_parts_self (f : Formula) : f ∈ f.parts := by
  cases f <;> simp [parts]

mutual

/-- The parts of a part of a formula are parts of the formula. -/
theorem Formula.parts_subset {f g : Formula} (h : g ∈ f.parts) : g.parts ⊆ f.parts := by
  match f with
  | .constant _ _ | .now _ =>
    obtain rfl := List.mem_singleton.1 h
    exact List.Subset.refl _
  | .apply _ operand _ | .assert operand _ | .aggregate _ operand _ =>
    rcases List.mem_cons.1 h with rfl | h
    · exact List.Subset.refl _
    · exact List.subset_cons_of_subset _ (Formula.parts_subset h)
  | .binary _ left right _ | .both left right _ | .either left right _ | .fallback left right _
  | .test _ left right _ | .aggregateBy _ left _ right _ =>
    rcases List.mem_cons.1 h with rfl | h
    · exact List.Subset.refl _
    · refine List.subset_cons_of_subset _ ?_
      rcases List.mem_append.1 h with h | h
      · exact List.subset_append_of_subset_left _ (Formula.parts_subset h)
      · exact List.subset_append_of_subset_right _ (Formula.parts_subset h)
  | .choose condition yes no _ =>
    rcases List.mem_cons.1 h with rfl | h
    · exact List.Subset.refl _
    · refine List.subset_cons_of_subset _ ?_
      rcases List.mem_append.1 h with h | h
      · refine List.subset_append_of_subset_left _ ?_
        rcases List.mem_append.1 h with h | h
        · exact List.subset_append_of_subset_left _ (Formula.parts_subset h)
        · exact List.subset_append_of_subset_right _ (Formula.parts_subset h)
      · exact List.subset_append_of_subset_right _ (Formula.parts_subset h)
  | .concatenate fs _ | .operation _ fs _ =>
    rcases List.mem_cons.1 h with rfl | h
    · exact List.Subset.refl _
    · exact List.subset_cons_of_subset _ (Formula.partsOfAll_subset h)
  | .lookup _ steps _ =>
    rcases List.mem_cons.1 h with rfl | h
    · exact List.Subset.refl _
    · exact List.subset_cons_of_subset _ (Formula.partsOfSteps_subset h)
  | .follow base steps _ =>
    rcases List.mem_cons.1 h with rfl | h
    · exact List.Subset.refl _
    · refine List.subset_cons_of_subset _ ?_
      rcases List.mem_append.1 h with h | h
      · exact List.subset_append_of_subset_left _ (Formula.parts_subset h)
      · exact List.subset_append_of_subset_right _ (Formula.partsOfSteps_subset h)

theorem Formula.partsOfAll_subset {fs : List Formula} {g : Formula}
    (h : g ∈ Formula.partsOfAll fs) :
    g.parts ⊆ Formula.partsOfAll fs := by
  match fs with
  | [] => cases h
  | f :: fs =>
    rcases List.mem_append.1 h with h | h
    · exact List.subset_append_of_subset_left _ (Formula.parts_subset h)
    · exact List.subset_append_of_subset_right _ (Formula.partsOfAll_subset h)

theorem Step.parts_subset {step : Step} {g : Formula} (h : g ∈ step.parts) :
    g.parts ⊆ step.parts := by
  match step with
  | .member _ | .arrange _ _ => cases h
  | .index indexes | .at indexes _ => exact Formula.partsOfAll_subset h
  | .through _ _ body _ => exact Formula.parts_subset h

theorem Formula.partsOfSteps_subset {steps : List Step} {g : Formula}
    (h : g ∈ Formula.partsOfSteps steps) : g.parts ⊆ Formula.partsOfSteps steps := by
  match steps with
  | [] => cases h
  | step :: steps =>
    rcases List.mem_append.1 h with h | h
    · exact List.subset_append_of_subset_left _ (Step.parts_subset h)
    · exact List.subset_append_of_subset_right _ (Formula.partsOfSteps_subset h)

end

/-- Whether the values of an operation fit, given as many arguments of its type as it takes. -/
def Operation.KeepsKind (o : Operation) : Prop :=
  ∀ vs : List Value, vs.length = o.arity →
    (∀ v ∈ vs, v.scalarType? = some o.operandType) → o.kind.Fits (o.compute vs)

/-- Whether a formula is no operation that a vocabulary adds, or one that keeps its kind and has as
many arguments as it takes. -/
def Formula.KeepsKind : Formula → Prop
  | .operation o arguments _ => o.KeepsKind ∧ arguments.length = o.arity
  | _ => True

theorem evaluateAs_spec {c : Context} {type : ScalarType} {fs : List Formula} {vs : List Value}
    (h : (evaluateAs c type fs).outcome = .ok vs) :
    vs.length = fs.length ∧ ∀ v ∈ vs, v.scalarType? = some type := by
  induction fs generalizing vs with
  | nil =>
    rw [evaluateAs] at h
    obtain rfl := Except.ok.inj h
    simp
  | cons f fs ih =>
    rw [evaluateAs] at h
    obtain ⟨v, -, h⟩ := Traced.outcome_bind_eq_ok_iff.1 h
    obtain ⟨w, hw, h⟩ := Traced.outcome_bind_eq_ok_iff.1 h
    obtain ⟨rest, hrest, h⟩ := Traced.outcome_bind_eq_ok_iff.1 h
    obtain rfl := Except.ok.inj h
    obtain ⟨hlength, htypes⟩ := ih hrest
    refine ⟨by rw [List.length_cons, hlength, List.length_cons], ?_⟩
    intro u hu
    rcases List.mem_cons.1 hu with rfl | hu
    · exact Value.expect_scalarType? hw
    · exact htypes u hu

/-- An asserted value is the value of the operand. -/
theorem Value.asserted_eq_ok {v w : Value} {position : Position}
    (h : v.asserted position = .ok w) : w = v := by
  unfold asserted at h
  split at h
  · simp at h
  · cases v with
    | nodes ns =>
      rcases ns with _ | ⟨n, ns⟩
      · simp at h
      · exact (Except.ok.inj h).symm
    | _ => exact (Except.ok.inj h).symm

/-- The value of a formula fits what it announces. -/
theorem evaluate_fits {c : Context} {f : Formula} {v : Value} (hf : ∀ g ∈ f.parts, g.KeepsKind)
    (h : (evaluate c f).outcome = .ok v) : f.kind.Fits v := by
  intro type htype
  match f with
  | .constant w _ =>
    rw [evaluate] at h
    obtain rfl := Except.ok.inj h
    exact w.kind_fits type htype
  | .apply function operand _ =>
    rw [evaluate] at h
    obtain ⟨a, -, h⟩ := Traced.outcome_bind_eq_ok_iff.1 h
    exact UnaryFunction.run_fits h type htype
  | .assert operand position =>
    -- the operand is handed on as it is, so what it announces is announced
    rw [evaluate] at h
    obtain ⟨a, ha, h⟩ := Traced.outcome_bind_eq_ok_iff.1 h
    obtain rfl := Value.asserted_eq_ok h
    exact evaluate_fits (fun g hg => hf g (List.mem_cons_of_mem _ hg)) ha type htype
  | .binary o left right position =>
    rw [evaluate] at h
    obtain ⟨a, -, h⟩ := Traced.outcome_bind_eq_ok_iff.1 h
    obtain ⟨b, -, h⟩ := Traced.outcome_bind_eq_ok_iff.1 h
    exact BinaryOperation.run_fits h type htype
  | .both left right _ =>
    rw [evaluate] at h
    obtain ⟨a, -, h⟩ := Traced.outcome_bind_eq_ok_iff.1 h
    obtain ⟨first, -, h⟩ := Traced.outcome_bind_eq_ok_iff.1 h
    split at h
    · obtain ⟨b, -, h⟩ := Traced.outcome_bind_eq_ok_iff.1 h
      obtain ⟨second, -, h⟩ := Traced.outcome_bind_eq_ok_iff.1 h
      obtain rfl := Except.ok.inj h
      exact htype
    · obtain rfl := Except.ok.inj h
      exact htype
  | .either left right _ =>
    rw [evaluate] at h
    obtain ⟨a, -, h⟩ := Traced.outcome_bind_eq_ok_iff.1 h
    obtain ⟨first, -, h⟩ := Traced.outcome_bind_eq_ok_iff.1 h
    split at h
    · obtain rfl := Except.ok.inj h
      exact htype
    · obtain ⟨b, -, h⟩ := Traced.outcome_bind_eq_ok_iff.1 h
      obtain ⟨second, -, h⟩ := Traced.outcome_bind_eq_ok_iff.1 h
      obtain rfl := Except.ok.inj h
      exact htype
  | .fallback value alternative _ =>
    have hvalue : ∀ g ∈ value.parts, g.KeepsKind := fun g hg =>
      hf g (List.mem_cons_of_mem _ (List.mem_append_left _ hg))
    have halternative : ∀ g ∈ alternative.parts, g.KeepsKind := fun g hg =>
      hf g (List.mem_cons_of_mem _ (List.mem_append_right _ hg))
    rw [Formula.kind] at htype
    rw [evaluate] at h
    obtain ⟨a, ha, h⟩ := Traced.outcome_bind_eq_ok_iff.1 h
    rcases htyped : alternative.kind.type? with _ | announced
    · -- the kind is that of the value, and a value of a scalar type is never missing
      rw [htyped, Option.isSome_none, if_neg (by simp)] at htype
      have hfits := evaluate_fits hvalue ha type htype
      have hthere : a.isMissing = false := by
        cases a <;> first | rfl | simp [Value.scalarType?] at hfits
      rw [hthere, if_neg (by simp), htyped] at h
      obtain rfl := Except.ok.inj h
      exact hfits
    · -- the kind is that of the alternative, and the value is converted to it
      rw [htyped, Option.isSome_some, if_pos rfl, htyped] at htype
      obtain rfl := Option.some.inj htype
      split at h
      · exact evaluate_fits halternative h announced htyped
      · rw [htyped] at h
        simp only at h
        split at h
        · rename_i hconverted
          obtain rfl := Except.ok.inj h
          exact Value.convert?_scalarType? hconverted
        · exact evaluate_fits halternative h announced htyped
  | .test t whole part _ =>
    rw [evaluate] at h
    obtain ⟨_, -, h⟩ := Traced.outcome_bind_eq_ok_iff.1 h
    obtain ⟨_, -, h⟩ := Traced.outcome_bind_eq_ok_iff.1 h
    obtain ⟨_, -, h⟩ := Traced.outcome_bind_eq_ok_iff.1 h
    obtain ⟨_, -, h⟩ := Traced.outcome_bind_eq_ok_iff.1 h
    obtain rfl := Except.ok.inj h
    exact htype
  | .concatenate fs _ =>
    rw [evaluate] at h
    obtain ⟨texts, -, h⟩ := Traced.outcome_bind_eq_ok_iff.1 h
    obtain rfl := Except.ok.inj h
    exact htype
  | .choose condition yes no _ => exact Kind.fits_any v type htype
  | .now _ =>
    rw [evaluate] at h
    obtain rfl := Except.ok.inj h
    exact htype
  | .aggregate a collection position =>
    rw [evaluate] at h
    obtain ⟨_, -, h⟩ := Traced.outcome_bind_eq_ok_iff.1 h
    obtain ⟨items, -, h⟩ := Traced.outcome_bind_eq_ok_iff.1 h
    exact Aggregate.run_fits h type htype
  | .aggregateBy a collection lambda body position =>
    rw [evaluate] at h
    obtain ⟨_, -, h⟩ := Traced.outcome_bind_eq_ok_iff.1 h
    obtain ⟨items, -, h⟩ := Traced.outcome_bind_eq_ok_iff.1 h
    exact Aggregate.runWith_fits h type htype
  | .lookup start steps _ => exact Kind.fits_found v type htype
  | .follow base steps _ => exact Kind.fits_found v type htype
  | .operation o arguments position =>
    obtain ⟨hkeeps, hlength⟩ : o.KeepsKind ∧ arguments.length = o.arity :=
      hf _ (Formula.mem_parts_self _)
    rw [evaluate] at h
    obtain ⟨vs, hvs, h⟩ := Traced.outcome_bind_eq_ok_iff.1 h
    obtain rfl := Except.ok.inj h
    obtain ⟨hcount, htypes⟩ := evaluateAs_spec hvs
    exact hkeeps vs (hcount.trans hlength) htypes type htype

/-! ### Compiled formulas -/

/-- Whether the operations that a vocabulary adds keep their kinds. Those between two operands take
two arguments. -/
structure Vocabulary.KeepsKinds (v : Vocabulary) : Prop where
  function : ∀ {name o}, v.functions.lookup name = some (.operation o) → o.KeepsKind
  binary : ∀ {name o}, v.binary.lookup name = some (.custom o) → o.KeepsKind ∧ o.arity = 2

theorem Vocabulary.standard_keepsKinds : Vocabulary.standard.KeepsKinds where
  function {name o} h := by
    obtain ⟨_, _, hsplit, -⟩ := List.lookup_eq_some_iff.1 h
    have hmem : (name, FunctionMeaning.operation o) ∈ standardFunctions := by
      rw [show standardFunctions = _ from hsplit]
      simp
    simp [standardFunctions] at hmem
  binary {name o} h := by
    obtain ⟨_, _, hsplit, -⟩ := List.lookup_eq_some_iff.1 h
    have hmem : (name, BinaryMeaning.custom o) ∈ standardBinary := by
      rw [show standardBinary = _ from hsplit]
      simp
    simp [standardBinary] at hmem

/-- Whether formulas keep their kinds, one and all. -/
def AllKeepKinds (fs : List Formula) : Prop := ∀ g ∈ fs, g.KeepsKind

theorem AllKeepKinds.append {fs gs : List Formula} (hf : AllKeepKinds fs) (hg : AllKeepKinds gs) :
    AllKeepKinds (fs ++ gs) :=
  List.forall_mem_append.2 ⟨hf, hg⟩

theorem AllKeepKinds.cons {f : Formula} {gs : List Formula} (hf : f.KeepsKind)
    (hg : AllKeepKinds gs) : AllKeepKinds (f :: gs) :=
  List.forall_mem_cons.2 ⟨hf, hg⟩

theorem Formula.partsOfSteps_append (steps more : List Step) :
    partsOfSteps (steps ++ more) = partsOfSteps steps ++ partsOfSteps more := by
  induction steps with
  | nil => rfl
  | cons step steps ih => rw [List.cons_append, partsOfSteps, partsOfSteps, ih, List.append_assoc]

/-- The formulas inside a chain. -/
def Chain.parts : Chain → List Formula
  | .qualifier _ _ => []
  | .lookup _ steps _ => Formula.partsOfSteps steps
  | .follow base steps _ => base.parts ++ Formula.partsOfSteps steps

theorem Chain.formula_keepsKinds {c : Chain} (h : AllKeepKinds c.parts) :
    AllKeepKinds c.formula.parts := by
  cases c with
  | qualifier q p => exact .cons trivial h
  | lookup start steps p => exact .cons trivial h
  | follow base steps p =>
    cases steps with
    | nil => exact fun g hg => h g (List.mem_append_left _ hg)
    | cons step steps => exact .cons trivial h

theorem Chain.extend_keepsKinds {c : Chain} {more : List Step} (h : AllKeepKinds c.parts)
    (hmore : AllKeepKinds (Formula.partsOfSteps more)) : AllKeepKinds (c.extend more).parts := by
  cases c with
  | qualifier q p => exact hmore
  | lookup start steps p =>
    rw [extend, parts, Formula.partsOfSteps_append]
    exact h.append hmore
  | follow base steps p =>
    rw [extend, parts, Formula.partsOfSteps_append, ← List.append_assoc]
    exact h.append hmore

theorem Chain.member_keepsKinds {c : Chain} {name : String} {more : List Step}
    (h : AllKeepKinds c.parts) (hmore : AllKeepKinds (Formula.partsOfSteps more)) :
    AllKeepKinds (c.member name more).parts := by
  cases c with
  | qualifier q p => exact hmore
  | lookup | follow => exact extend_keepsKinds h hmore

theorem Chain.ofFormula_keepsKinds {p : Position} {f : Formula} (h : AllKeepKinds f.parts) :
    AllKeepKinds (Chain.ofFormula p f).parts :=
  h.append (List.forall_mem_nil _)

theorem FunctionMeaning.build?_keepsKinds {v : Vocabulary} {name : String} {p : Position}
    {meaning : FunctionMeaning} {fs : List Formula} {f : Formula} (hv : v.KeepsKinds)
    (hmeaning : v.functions.lookup name = some meaning) (hknown : meaning.isKnownWith fs.length)
    (hfs : AllKeepKinds (Formula.partsOfAll fs)) (h : meaning.build? p fs = some f) :
    AllKeepKinds f.parts := by
  unfold build? at h
  split at h
  · obtain rfl := Option.some.inj h
    exact .cons trivial (by simpa [Formula.partsOfAll] using hfs)
  · obtain rfl := Option.some.inj h
    exact .cons trivial (by simpa [Formula.partsOfAll] using hfs)
  · obtain rfl := Option.some.inj h
    exact .cons trivial hfs
  · obtain rfl := Option.some.inj h
    exact .cons trivial (by simpa [Formula.partsOfAll] using hfs)
  · obtain rfl := Option.some.inj h
    exact .cons trivial hfs
  · obtain rfl := Option.some.inj h
    exact .cons ⟨hv.function hmeaning, by simpa [isKnownWith] using hknown⟩ hfs
  · simp at h

theorem BinaryMeaning.build_keepsKinds {v : Vocabulary} {name : String} {p : Position}
    {meaning : BinaryMeaning} {f g : Formula} (hv : v.KeepsKinds)
    (hmeaning : v.binary.lookup name = some meaning) (hf : AllKeepKinds f.parts)
    (hg : AllKeepKinds g.parts) : AllKeepKinds (meaning.build p f g).parts := by
  cases meaning with
  | operation | both | either | fallback => exact .cons trivial (hf.append hg)
  | custom o =>
    obtain ⟨hkeeps, harity⟩ := hv.binary hmeaning
    refine .cons ⟨hkeeps, harity.symm⟩ ?_
    simpa [Formula.partsOfAll] using hf.append hg

theorem OperandMeaning.build_keepsKinds {p : Position} {meaning : OperandMeaning} {f : Formula}
    (hf : AllKeepKinds f.parts) : AllKeepKinds (meaning.build p f).parts := by
  cases meaning <;> exact .cons trivial hf

theorem Naming.compileNumber_keepsKinds {s : Naming} {digits : String} {p : Position} {f : Formula}
    (h : s.compileNumber digits p = .ok f) : AllKeepKinds f.parts := by
  unfold compileNumber at h
  split at h
  · simp at h
  · split at h
    · simp at h
    · split at h
      · obtain rfl := Except.ok.inj h
        exact .cons trivial (List.forall_mem_nil _)
      · simp at h

theorem Naming.compileText_keepsKinds {s : Naming} {content : String} {p : Position} {f : Formula}
    (h : s.compileText content p = .ok f) : AllKeepKinds f.parts := by
  unfold compileText at h
  split at h
  · obtain rfl := Except.ok.inj h
    exact .cons trivial (List.forall_mem_nil _)
  · obtain rfl := Except.ok.inj h
    exact .cons trivial (List.forall_mem_nil _)
  · simp at h

theorem Naming.beginName_keepsKinds (s : Naming) (name : String) (p : Position) :
    AllKeepKinds (s.beginName name p).parts := by
  unfold beginName
  split
  · exact List.forall_mem_nil _
  · split
    · exact .cons trivial (List.forall_mem_nil _)
    · exact List.forall_mem_nil _

theorem Compiles.keepsKinds {s : Naming} {e : Expr} {f : Formula}
    (hlinks : ∀ {c}, Links s none e c → AllKeepKinds c.parts) (h : Compiles s e f) :
    AllKeepKinds f.parts := by
  cases h with
  | sealed _ hc => exact Chain.formula_keepsKinds (hlinks hc)

mutual

-- The recursion is on the expression: an expression that stands by itself is linked to nothing.

theorem Links.keepsKinds {s : Naming} {before : Option Chain} {e : Expr} {c : Chain}
    (h : Links s before e c) (hv : s.vocabulary.KeepsKinds)
    (hbefore : ∀ b, before = some b → AllKeepKinds b.parts) : AllKeepKinds c.parts := by
  cases h with
  | name n p => exact s.beginName_keepsKinds n p
  | memberName | memberText =>
    exact Chain.member_keepsKinds (hbefore _ rfl) (List.forall_mem_nil _)
  | text hf => exact Chain.ofFormula_keepsKinds (Naming.compileText_keepsKinds hf)
  | number hf => exact Chain.ofFormula_keepsKinds (Naming.compileNumber_keepsKinds hf)
  | index hfs =>
    exact (hfs.keepsKinds hv).append (List.forall_mem_nil _)
  | memberIndex hfs =>
    exact Chain.member_keepsKinds (hbefore _ rfl)
      ((hfs.keepsKinds hv).append (List.forall_mem_nil _))
  | group hf =>
    exact Chain.ofFormula_keepsKinds (hf.keepsKinds fun hc => hc.keepsKinds hv nofun)
  | looseBefore _ hc | looseAfter _ hc => exact hc.keepsKinds hv hbefore
  | before _ _ hf | after _ _ hf =>
    have hoperand := hf.keepsKinds fun hc => hc.keepsKinds hv nofun
    exact Chain.ofFormula_keepsKinds (OperandMeaning.build_keepsKinds hoperand)
  | path _ hleft hright =>
    refine hright.keepsKinds hv fun b hb => ?_
    obtain rfl := Option.some.inj hb
    exact hleft.keepsKinds hv hbefore
  | binary _ hmeaning hf hg =>
    have hleft := hf.keepsKinds fun hc => hc.keepsKinds hv nofun
    have hright := hg.keepsKinds fun hc => hc.keepsKinds hv nofun
    exact Chain.ofFormula_keepsKinds (BinaryMeaning.build_keepsKinds hv hmeaning hleft hright)
  | aggregate _ _ hf =>
    have hcollection := hf.keepsKinds fun hc => hc.keepsKinds hv nofun
    exact Chain.ofFormula_keepsKinds (.cons trivial hcollection)
  | aggregateBy _ _ hf hbody =>
    have hcollection := hf.keepsKinds fun hc => hc.keepsKinds hv nofun
    exact Chain.ofFormula_keepsKinds (.cons trivial (hcollection.append (hbody.keepsKinds hv)))
  | call hmeaning _ hknown hfs hbuild =>
    rw [hfs.length_eq] at hknown
    exact Chain.ofFormula_keepsKinds
      (FunctionMeaning.build?_keepsKinds hv hmeaning hknown (hfs.keepsKinds hv) hbuild)
  | through _ hbody =>
    exact Chain.extend_keepsKinds (hbefore _ rfl)
      ((hbody.keepsKinds hv).append (List.forall_mem_nil _))
  | arrange | custom =>
    exact Chain.extend_keepsKinds (hbefore _ rfl) (List.forall_mem_nil _)
  | positions _ hfs =>
    exact Chain.extend_keepsKinds (hbefore _ rfl)
      ((hfs.keepsKinds hv).append (List.forall_mem_nil _))

theorem CompilesAll.keepsKinds {s : Naming} {es : List Expr} {fs : List Formula}
    (h : CompilesAll s es fs) (hv : s.vocabulary.KeepsKinds) :
    AllKeepKinds (Formula.partsOfAll fs) := by
  cases h with
  | nil => exact List.forall_mem_nil _
  | cons hf hfs =>
    exact (hf.keepsKinds fun hc => hc.keepsKinds hv nofun).append (hfs.keepsKinds hv)

theorem CompilesLambda.keepsKinds {s : Naming} {function : String} {e : Expr} {f : Formula}
    (h : CompilesLambda s function e f) (hv : s.vocabulary.KeepsKinds) :
    AllKeepKinds f.parts := by
  cases h with
  | lambda _ _ hf =>
    -- the words are the same inside a lambda
    exact hf.keepsKinds fun {c} (hc : Links (s.enter _) none _ c) => hc.keepsKinds hv nofun

end

/-- In every formula that is compiled with a vocabulary that keeps its kinds, the values of all
parts fit what these announce. -/
theorem compiled_fits {s : Naming} {e : Expr} {f g : Formula} {c : Context} {v : Value}
    (hv : s.vocabulary.KeepsKinds) (h : compile s e = .ok f) (hg : g ∈ f.parts)
    (hvalue : (evaluate c g).outcome = .ok v) : g.kind.Fits v := by
  have hkeeps : AllKeepKinds f.parts :=
    (compiles_iff.1 h).keepsKinds fun hc => hc.keepsKinds hv nofun
  exact evaluate_fits (fun k hk => hkeeps k (Formula.parts_subset hg hk)) hvalue

/-- A document with one text in it, and no lambda around. -/
def unitContext : Context :=
  ⟨⟨⟨"D", .object (.at (.root "D"))
      [("Unit", .scalar (.at ⟨"D", [.member "Unit"]⟩) (.quoted "CM"))]⟩, []⟩, .standard,
    .midnight ⟨2024, 1, 1⟩, []⟩

/-- Whatever is compiled with the standard vocabulary, a part that announces a scalar type has no
value of another type, in any context. An alternative of such a kind leads to a fault or to a value
of its own type, whatever it stands for. -/
theorem compiled_kinds_hold {l : Language} {lambdas : List (List String)} {e : Expr} {f : Formula}
    (h : compile ⟨⟨l, .standard⟩, lambdas⟩ e = .ok f) (c : Context) :
    (∀ g ∈ f.parts, ∀ type, g.kind.type? = some type →
      ∀ v, (evaluate c g).outcome = .ok v → v.scalarType? = some type) ∧
    ∀ value alternative p, .fallback value alternative p ∈ f.parts →
      ∀ type, alternative.kind.type? = some type →
        (∃ fault, (evaluate c (.fallback value alternative p)).outcome = .error fault) ∨
        ∃ v, (evaluate c (.fallback value alternative p)).outcome = .ok v ∧
          v.scalarType? = some type := by
  have hfits : ∀ g ∈ f.parts, ∀ v, (evaluate c g).outcome = .ok v → g.kind.Fits v :=
    fun g hg v hvalue =>
      compiled_fits (s := ⟨⟨l, .standard⟩, lambdas⟩) Vocabulary.standard_keepsKinds h hg hvalue
  refine ⟨fun g hg type htype v hvalue => hfits g hg v hvalue type htype, ?_⟩
  intro value alternative p hmem type htype
  rcases hvalue : (evaluate c (.fallback value alternative p)).outcome with fault | v
  · exact .inl ⟨fault, rfl⟩
  · refine .inr ⟨v, rfl, hfits _ hmem v hvalue type ?_⟩
    -- a typed alternative announces for the whole
    rw [Formula.kind, htype, Option.isSome_some, if_pos rfl, htype]

theorem compiled_kinds_hold_assertion :
    ∃ e f v, parseExpression .standard "Size : Lower(Unit) assert" .start = .ok e ∧
      compile ⟨.standard, []⟩ e = .ok f ∧ f ∈ f.parts ∧ f.kind.type? = some .text ∧
        (evaluate unitContext f).outcome = .ok v ∧ v.scalarType? = some .text := by
  have hvalue :
      ((parseExpression .standard "Size : Lower(Unit) assert" .start).toOption.bind fun e =>
        (compile ⟨.standard, []⟩ e).toOption.bind fun f =>
          (evaluate unitContext f).outcome.toOption.map fun _ => f.kind.type?) =
        some (some .text) := by
    decide +kernel
  obtain ⟨e, he, hvalue⟩ := Option.bind_eq_some_iff.1 hvalue
  obtain ⟨f, hf, hvalue⟩ := Option.bind_eq_some_iff.1 hvalue
  obtain ⟨v, hv, htype⟩ := Option.map_eq_some_iff.1 hvalue
  have hcompiled := Except.toOption_eq_some_iff.1 hf
  have hevaluated := Except.toOption_eq_some_iff.1 hv
  have hself := f.mem_parts_self
  exact ⟨e, f, v, Except.toOption_eq_some_iff.1 he, hcompiled, hself, htype, hevaluated,
    (compiled_kinds_hold hcompiled unitContext).1 f hself .text htype v hevaluated⟩

end DocQuery
