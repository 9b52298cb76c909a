/-
Formulas have corresponding values in contexts that correspond.

* `Formula.Corresponds` — formulas that differ only in their positions, with constants that
  correspond;
* `Context.Corresponds` — contexts in which lookups begin with values that correspond;
* `evaluate_corresponds` — such formulas have corresponding values in such contexts, and come across
  corresponding places on the way.

Design notes: the functions that work on finished values ask for no more of a value than its atom,
its sort and its JSON, so each of them has one lemma, and the theorem on formulas cites them case by
case. Where lookups may begin is a parameter: two documents that differ in what they hold have
corresponding values for all formulas that never begin there.
-/
import DocQuery.Proofs.Formula.Correspondence
import DocQuery.Proofs.Formula.Counting

namespace DocQuery

open Time (Moment)

/-- What a value is converted to is computed. -/
theorem Value.isComputed_of_convert? {options : Options} {type : ScalarType} {v w : Value}
    (h : v.convert? options type = some w) : w.isComputed := by
  have hexpect := Except.toOption_eq_some_iff.1 h
  cases type <;>
  · obtain ⟨x, -, rfl⟩ := Except.map_eq_ok_iff.1 hexpect
    rfl

namespace Correspondence

variable {C : Correspondence}

/-! ### Functions and operators -/

section Functions

variable {options : Options} {v v' w w' : Value} {p p' : Position}

theorem mismatch (hv : C.Values v v') (hp : C.position p p') (type : ScalarType) :
    C.Faults (v.mismatch type p) (v'.mismatch type p') := by
  rw [Value.mismatch, Value.mismatch, hv.sort_eq]
  exact .failed _ hp

theorem toBoolean (hv : C.Values v v') (hp : C.position p p') :
    C.Outcomes Eq (v.toBoolean p) (v'.toBoolean p') := by
  have hfault := mismatch hv hp .boolean
  rw [Value.toBoolean, Value.toBoolean, hv.atom?_eq]
  rcases v.atom? with _ | b | x | s | m
  · exact .error hfault
  · exact .ok rfl
  · exact .error hfault
  · exact .error hfault
  · exact .error hfault

theorem toNumber (hv : C.Values v v') (hp : C.position p p') :
    C.Outcomes Eq (v.toNumber p) (v'.toNumber p') := by
  have hfault := mismatch hv hp .number
  rw [Value.toNumber, Value.toNumber, hv.atom?_eq]
  split
  · exact .ok rfl
  · exact .error hfault

theorem toText (hv : C.Values v v') (hp : C.position p p') :
    C.Outcomes Eq (v.toText p) (v'.toText p') := by
  have hfault := mismatch hv hp .text
  rw [Value.toText, Value.toText, hv.atom?_eq]
  cases v.atom? with
  | none => exact .error hfault
  | some a => exact .ok rfl

theorem toMoment (hv : C.Values v v') (hp : C.position p p') :
    C.Outcomes Eq (v.toMoment options p) (v'.toMoment options p') := by
  have hfault := mismatch hv hp .moment
  rw [Value.toMoment, Value.toMoment, hv.atom?_eq]
  split
  · exact .ok rfl
  · exact .error hfault

theorem expect (hv : C.Values v v') (hp : C.position p p') (type : ScalarType) :
    C.Outcomes Eq (v.expect options type p) (v'.expect options type p') := by
  cases type with
  | boolean => exact (toBoolean hv hp).map fun _ _ h => congrArg _ h
  | number => exact (toNumber hv hp).map fun _ _ h => congrArg _ h
  | text => exact (toText hv hp).map fun _ _ h => congrArg _ h
  | moment => exact (toMoment hv hp).map fun _ _ h => congrArg _ h

/-- A value converts to a type if a corresponding one does, and to the same. -/
theorem convert?_eq (hv : C.Values v v') (type : ScalarType) :
    v'.convert? options type = v.convert? options type := by
  cases type <;>
    simp only [Value.convert?, Value.expect, Value.toBoolean, Value.toNumber, Value.toText,
      Value.toMoment, Value.mismatch, hv.atom?_eq, hv.sort_eq]

theorem display (hv : C.Values v v') (hp : C.position p p') :
    C.Outcomes Eq (v.display p) (v'.display p') := by
  rw [Value.display, Value.display, hv.atom?_eq, hv.structure?_eq, hv.isUndefined_eq]
  rcases v.atom? with _ | a
  · rcases v.structure? with _ | json
    · simp only
      split
      · exact .error (.failed _ hp)
      · exact .ok rfl
    · exact .ok rfl
  · exact .ok rfl

theorem itemsOf (hv : C.Values v v') (hp : C.position p p') (function : String) :
    C.Outcomes (List.Forall₂ C.node) (v.items function p) (v'.items function p') := by
  cases hv with
  | @computed v hcomputed =>
    cases v with
    | undefined => exact .ok .nil
    | null | boolean | number | text | moment => exact .error (.failed _ hp)
    | node | nodes => cases hcomputed
  | node hn => exact .ok (spread hn)
  | nodes hns => exact .ok hns

theorem asserted (hv : C.Values v v') (hp : C.position p p') :
    C.Outcomes C.Values (v.asserted p) (v'.asserted p') := by
  unfold Value.asserted
  rw [hv.isMissing_eq, hv.sort_eq]
  split
  · exact .error (.failed _ hp)
  · cases hv with
    | @computed v hcomputed =>
      cases v with
      | undefined | null | boolean | number | text | moment => exact .ok (.computed rfl)
      | node | nodes => cases hcomputed
    | node hn => exact .ok (.node hn)
    | nodes hns =>
      cases hns with
      | nil => exact .error (.failed _ hp)
      | cons hn hns => exact .ok (.nodes (.cons hn hns))

theorem same_eq (hv : C.Values v v') (hw : C.Values w w') :
    v'.same options w' = v.same options w := by
  rw [Value.same, Value.same, hv.isMissing_eq, hw.isMissing_eq, hv.atom?_eq, hw.atom?_eq,
    hv.structure?_eq, hw.structure?_eq]

theorem order (hv : C.Values v v') (hw : C.Values w w') (hp : C.position p p') :
    C.Outcomes Eq (v.order options p w) (v'.order options p' w') := by
  rw [Value.order, Value.order, hv.atom?_eq, hw.atom?_eq, hv.sort_eq, hw.sort_eq]
  rcases v.atom? with _ | x
  · exact .error (.failed _ hp)
  · rcases w.atom? with _ | y
    · exact .error (.failed _ hp)
    · simp only
      split
      · exact .ok rfl
      · exact .error (.failed _ hp)

/-- Whether two operands have values and positions that correspond. -/
structure Operands (C : Correspondence) (a a' : Operand) : Prop where
  value : C.Values a.value a'.value
  position : C.position a.position a'.position

variable {a a' b b' : Operand}

theorem Operands.boolean (h : C.Operands a a') : C.Outcomes Eq a.boolean a'.boolean :=
  toBoolean h.value h.position

theorem Operands.number (h : C.Operands a a') : C.Outcomes Eq a.number a'.number :=
  toNumber h.value h.position

theorem Operands.text (h : C.Operands a a') : C.Outcomes Eq a.text a'.text :=
  toText h.value h.position

/-- What is computed from corresponding operands corresponds. -/
theorem Outcomes.computed {α : Type} {x y : Except Fault α} {f : α → Value}
    (h : C.Outcomes Eq x y) (hf : ∀ a, (f a).isComputed) :
    C.Outcomes C.Values (x.map f) (y.map f) :=
  h.map fun a _ hab => hab ▸ .computed (hf a)

theorem integer (h : C.Operands a a') (name : String) :
    C.Outcomes Eq (UnaryFunction.integer name a) (UnaryFunction.integer name a') := by
  refine h.number.bind_eq fun x => ?_
  split
  · exact .ok rfl
  · exact .error (.failed _ h.position)

theorem readBoolean (h : C.Operands a a') :
    C.Outcomes Eq (UnaryFunction.readBoolean a) (UnaryFunction.readBoolean a') := by
  have hfault := mismatch h.value h.position .boolean
  rw [UnaryFunction.readBoolean, UnaryFunction.readBoolean, h.value.atom?_eq]
  split
  · exact .ok rfl
  · exact .error hfault

theorem mapText (h : C.Operands a a') (change : List Char → List Char) :
    C.Outcomes C.Values (UnaryFunction.mapText change a) (UnaryFunction.mapText change a') :=
  h.text.bind_eq fun _ => .ok (.computed rfl)

theorem unary (h : C.Operands a a') (f : UnaryFunction) :
    C.Outcomes C.Values (f.run options a) (f.run options a') := by
  cases f with
  | negate | toInt | toDouble | abs => exact h.number.computed fun _ => rfl
  | not => exact h.boolean.computed fun _ => rfl
  | len => exact h.text.computed fun _ => rfl
  | lower | upper | trim => exact mapText h _
  | toText => exact (display h.value h.position).computed fun _ => rfl
  | toBoolean => exact (readBoolean h).computed fun _ => rfl
  | toMoment => exact (toMoment h.value h.position).computed fun _ => rfl
  | isEven => exact (integer h "IsEven").computed fun _ => rfl
  | isOdd => exact (integer h "IsOdd").computed fun _ => rfl
  | isNull =>
    rw [UnaryFunction.run, UnaryFunction.run, h.value.isNull_eq]
    exact .ok (.computed rfl)
  | isUndefined =>
    rw [UnaryFunction.run, UnaryFunction.run, h.value.isUndefined_eq]
    exact .ok (.computed rfl)
  | hasValue =>
    rw [UnaryFunction.run, UnaryFunction.run, h.value.isMissing_eq]
    exact .ok (.computed rfl)

theorem add (h : C.Operands a a') (h' : C.Operands b b') :
    C.Outcomes C.Values (BinaryOperation.add a b) (BinaryOperation.add a' b') := by
  have hleft : BinaryOperation.isText a' = BinaryOperation.isText a := by
    rw [BinaryOperation.isText, BinaryOperation.isText, h.value.atom?_eq]
  have hright : BinaryOperation.isText b' = BinaryOperation.isText b := by
    rw [BinaryOperation.isText, BinaryOperation.isText, h'.value.atom?_eq]
  rw [BinaryOperation.add, BinaryOperation.add, hleft, hright]
  split
  · exact h.text.bind_eq fun s => h'.text.bind_eq fun t => .ok (.computed rfl)
  · exact h.number.bind_eq fun x => h'.number.bind_eq fun y => .ok (.computed rfl)

theorem arithmetic (hp : C.position p p') (x y : Float) (operator : Arithmetic) :
    C.Outcomes Eq (BinaryOperation.compute p x y operator)
      (BinaryOperation.compute p' x y operator) := by
  cases operator with
  | difference | product => exact .ok rfl
  | quotient | remainder =>
    rw [BinaryOperation.compute, BinaryOperation.compute]
    split
    · exact .error (.failed _ hp)
    · exact .ok rfl

theorem binary (hp : C.position p p') (h : C.Operands a a') (h' : C.Operands b b')
    (o : BinaryOperation) : C.Outcomes C.Values (o.run options p a b) (o.run options p' a' b') := by
  cases o with
  | sum => exact add h h'
  | arithmetic operator =>
    exact h.number.bind_eq fun x => h'.number.bind_eq fun y =>
      (arithmetic hp x y operator).bind_eq fun z => .ok (.computed rfl)
  | equal | unequal =>
    rw [BinaryOperation.run, BinaryOperation.run, same_eq h.value h'.value]
    exact .ok (.computed rfl)
  | relation r => exact (order h.value h'.value hp).computed fun _ => rfl

theorem wholeNumber (h : C.Operands a a') : C.Outcomes Eq a.wholeNumber a'.wholeNumber := by
  refine h.number.bind_eq fun x => ?_
  split
  · exact .error (.failed _ h.position)
  · exact .ok rfl

theorem index (h : C.Operands a a') : C.Outcomes Eq a.index a'.index := by
  refine (wholeNumber h).bind_eq fun x => .ok rfl

end Functions

/-! ### Going through items -/

section Items

/-- Whether two items at one position correspond. -/
def Items (C : Correspondence) (p p' : Node × Nat) : Prop :=
  C.node p.1 p'.1 ∧ p'.2 = p.2

variable {ns ns' : List Node} {items items' : List (Node × Nat)}

theorem items_zipIdx (h : List.Forall₂ C.node ns ns') (k : Nat) :
    List.Forall₂ C.Items (ns.zipIdx k) (ns'.zipIdx k) := by
  induction h generalizing k with
  | nil => exact .nil
  | cons hn _ ih =>
    rw [List.zipIdx_cons, List.zipIdx_cons]
    exact .cons ⟨hn, rfl⟩ (ih (k + 1))

theorem filterItems {test test' : Node × Nat → Traced Bool}
    (htest : ∀ p p', C.Items p p' → C.Runs Eq (test p) (test' p'))
    (h : List.Forall₂ C.Items items items') :
    C.Runs (List.Forall₂ C.node) (filterItems test items) (filterItems test' items') := by
  induction h with
  | nil => exact .pure .nil
  | cons hp _ ih =>
    rw [DocQuery.filterItems, DocQuery.filterItems]
    refine (htest _ _ hp).bind_eq fun passes => ih.bind fun rest rest' hrest => ?_
    cases passes
    · exact .pure hrest
    · exact .pure (.cons hp.1 hrest)

theorem projectItems {project project' : Node × Nat → Traced Value}
    (hproject : ∀ p p', C.Items p p' → C.Runs C.Values (project p) (project' p'))
    (h : List.Forall₂ C.Items items items') :
    C.Runs (List.Forall₂ C.node) (projectItems project items) (projectItems project' items') := by
  induction h with
  | nil => exact .pure .nil
  | cons hp _ ih =>
    rw [DocQuery.projectItems, DocQuery.projectItems]
    refine (hproject _ _ hp).bind fun v v' hv => ih.bind fun rest rest' hrest => ?_
    exact .pure (List.rel_append (hv.contribution hp.1) hrest)

theorem findItem {test test' : Node × Nat → Traced Bool}
    (htest : ∀ p p', C.Items p p' → C.Runs Eq (test p) (test' p'))
    (h : List.Forall₂ C.Items items items') :
    C.Runs (Option.Rel C.node) (findItem test items) (findItem test' items') := by
  induction h with
  | nil => exact .pure .none
  | cons hp _ ih =>
    rw [DocQuery.findItem, DocQuery.findItem]
    refine (htest _ _ hp).bind_eq fun passes => ?_
    cases passes
    · exact ih
    · exact .pure (.some hp.1)

variable {valueOf valueOf' : Node × Nat → Traced Operand}

theorem testOf {p p' : Node × Nat} (h : C.Runs C.Operands (valueOf p) (valueOf' p')) :
    C.Runs Eq (testOf valueOf p) (testOf valueOf' p') :=
  h.bind fun _ _ ha => .ofExcept ha.boolean

theorem select (hvalue : ∀ p p', C.Items p p' → C.Runs C.Operands (valueOf p) (valueOf' p'))
    (h : List.Forall₂ C.node ns ns') (selector : LambdaSelector) :
    C.Runs C.Views (selector.select valueOf ns) (selector.select valueOf' ns') := by
  have hzip := items_zipIdx h 0
  have htest : ∀ p p', C.Items p p' →
      C.Runs Eq (DocQuery.testOf valueOf p) (DocQuery.testOf valueOf' p') :=
    fun p p' hp => testOf (hvalue p p' hp)
  cases selector with
  | filter => exact (filterItems htest hzip).bind fun _ _ hchosen => .pure (.many hchosen)
  | project =>
    refine (projectItems ?_ hzip).bind fun _ _ hprojected => .pure (.many hprojected)
    exact fun p p' hp => (hvalue p p' hp).bind fun _ _ ha => .pure ha.value
  | first => exact (findItem htest hzip).bind fun _ _ hfound => .pure (.single hfound)
  | last =>
    refine (findItem htest ?_).bind fun _ _ hfound => .pure (.single hfound)
    exact List.forall₂_reverse_iff.2 hzip

theorem tallied {a a' : Operand} (h : C.Operands a a') (tally : Tally) :
    C.Outcomes Eq (tally.add a) (tally.add a') := by
  cases tally with
  | count | any | all => exact h.boolean.map fun _ _ hb => by rw [hb]
  | sum | average | extreme => exact h.number.map fun _ _ hx => by rw [hx]

theorem collect (hvalue : ∀ p p', C.Items p p' → C.Runs C.Operands (valueOf p) (valueOf' p'))
    (h : List.Forall₂ C.Items items items') (tally : Tally) :
    C.Runs Eq (tally.collect valueOf items) (tally.collect valueOf' items') := by
  induction h generalizing tally with
  | nil => exact .pure rfl
  | cons hp _ ih =>
    rw [Tally.collect, Tally.collect]
    refine (hvalue _ _ hp).bind fun a a' ha => (Runs.ofExcept (tallied ha tally)).bind_eq ?_
    rintro ⟨next, goesOn⟩
    exact .ite (ih next) (.pure rfl)

theorem result (tally : Tally) : tally.result.isComputed := by
  cases tally with
  | average total n => cases n <;> rfl
  | extreme best isGreatest => cases best <;> rfl
  | count | any | all | sum => rfl

theorem runWith (hvalue : ∀ p p', C.Items p p' → C.Runs C.Operands (valueOf p) (valueOf' p'))
    (h : List.Forall₂ C.node ns ns') (a : Aggregate) :
    C.Runs C.Values (a.runWith valueOf ns) (a.runWith valueOf' ns') :=
  (collect hvalue (items_zipIdx h 0) a.start).bind_eq fun tally =>
    .pure (.computed (result tally))

theorem aggregated {p p' : Position} (hp : C.position p p') (h : List.Forall₂ C.node ns ns')
    (a : Aggregate) : C.Runs C.Values (a.run p ns) (a.run p' ns') := by
  cases a with
  | count =>
    rw [Aggregate.run, Aggregate.run, h.length_eq]
    exact .pure (.computed rfl)
  | any =>
    have hempty : ns'.isEmpty = ns.isEmpty := by cases h <;> rfl
    rw [Aggregate.run, Aggregate.run, hempty]
    exact .pure (.computed rfl)
  | all | sum | average | min | max =>
    exact runWith (fun _ _ hitem => .pure ⟨.node hitem.1, hp⟩) h _

end Items

end Correspondence

/-! ### Formulas -/

mutual

/-- Whether two formulas differ only in their positions and in constants that correspond, and have
lookups that begin only where `Begins` allows it. -/
inductive Formula.Corresponds (C : Correspondence) (Begins : Start → Prop) :
    Formula → Formula → Prop
  | constant {v v' : Value} {p p' : Position} :
    C.Values v v' → C.position p p' → Formula.Corresponds C Begins (.constant v p) (.constant v' p')
  | apply (function : UnaryFunction) {f f' : Formula} {p p' : Position} :
    Formula.Corresponds C Begins f f' → C.position p p' →
      Formula.Corresponds C Begins (.apply function f p) (.apply function f' p')
  | assert {f f' : Formula} {p p' : Position} :
    Formula.Corresponds C Begins f f' → C.position p p' →
      Formula.Corresponds C Begins (.assert f p) (.assert f' p')
  | binary (o : BinaryOperation) {f f' g g' : Formula} {p p' : Position} :
    Formula.Corresponds C Begins f f' → Formula.Corresponds C Begins g g' → C.position p p' →
      Formula.Corresponds C Begins (.binary o f g p) (.binary o f' g' p')
  | both {f f' g g' : Formula} {p p' : Position} :
    Formula.Corresponds C Begins f f' → Formula.Corresponds C Begins g g' → C.position p p' →
      Formula.Corresponds C Begins (.both f g p) (.both f' g' p')
  | either {f f' g g' : Formula} {p p' : Position} :
    Formula.Corresponds C Begins f f' → Formula.Corresponds C Begins g g' → C.position p p' →
      Formula.Corresponds C Begins (.either f g p) (.either f' g' p')
  | fallback {f f' g g' : Formula} {p p' : Position} :
    Formula.Corresponds C Begins f f' → Formula.Corresponds C Begins g g' → C.position p p' →
      Formula.Corresponds C Begins (.fallback f g p) (.fallback f' g' p')
  | test (t : TextTest) {f f' g g' : Formula} {p p' : Position} :
    Formula.Corresponds C Begins f f' → Formula.Corresponds C Begins g g' → C.position p p' →
      Formula.Corresponds C Begins (.test t f g p) (.test t f' g' p')
  | concatenate {fs fs' : List Formula} {p p' : Position} :
    Formula.AllCorrespond C Begins fs fs' → C.position p p' →
      Formula.Corresponds C Begins (.concatenate fs p) (.concatenate fs' p')
  | choose {f f' g g' h h' : Formula} {p p' : Position} :
    Formula.Corresponds C Begins f f' → Formula.Corresponds C Begins g g' →
      Formula.Corresponds C Begins h h' → C.position p p' →
        Formula.Corresponds C Begins (.choose f g h p) (.choose f' g' h' p')
  | now {p p' : Position} :
    C.position p p' → Formula.Corresponds C Begins (.now p) (.now p')
  | aggregate (a : Aggregate) {f f' : Formula} {p p' : Position} :
    Formula.Corresponds C Begins f f' → C.position p p' →
      Formula.Corresponds C Begins (.aggregate a f p) (.aggregate a f' p')
  | aggregateBy (a : Aggregate) (lambda : Nat) {f f' body body' : Formula} {p p' : Position} :
    Formula.Corresponds C Begins f f' → Formula.Corresponds C Begins body body' →
      C.position p p' →
        Formula.Corresponds C Begins (.aggregateBy a f lambda body p)
          (.aggregateBy a f' lambda body' p')
  | lookup {start : Start} {steps steps' : List Step} {p p' : Position} :
    Begins start → Step.AllCorrespond C Begins steps steps' → C.position p p' →
      Formula.Corresponds C Begins (.lookup start steps p) (.lookup start steps' p')
  | follow {base base' : Formula} {steps steps' : List Step} {p p' : Position} :
    Formula.Corresponds C Begins base base' → Step.AllCorrespond C Begins steps steps' →
      C.position p p' →
        Formula.Corresponds C Begins (.follow base steps p) (.follow base' steps' p')
  | operation {o : Operation} {fs fs' : List Formula} {p p' : Position} :
    (∀ vs, C.Values (o.compute vs) (o.compute vs)) → Formula.AllCorrespond C Begins fs fs' →
      C.position p p' →
        Formula.Corresponds C Begins (.operation o fs p) (.operation o fs' p')

/-- Whether formulas correspond, one by one. -/
inductive Formula.AllCorrespond (C : Correspondence) (Begins : Start → Prop) :
    List Formula → List Formula → Prop
  | nil : Formula.AllCorrespond C Begins [] []
  | cons {f f' : Formula} {fs fs' : List Formula} :
    Formula.Corresponds C Begins f f' → Formula.AllCorrespond C Begins fs fs' →
      Formula.AllCorrespond C Begins (f :: fs) (f' :: fs')

/-- Whether two steps of a lookup differ only in formulas that correspond. -/
inductive Step.Corresponds (C : Correspondence) (Begins : Start → Prop) : Step → Step → Prop
  | member (name : String) : Step.Corresponds C Begins (.member name) (.member name)
  | index {fs fs' : List Formula} :
    Formula.AllCorrespond C Begins fs fs' → Step.Corresponds C Begins (.index fs) (.index fs')
  | positions {fs fs' : List Formula} {p p' : Position} :
    Formula.AllCorrespond C Begins fs fs' → C.position p p' →
      Step.Corresponds C Begins (.at fs p) (.at fs' p')
  | arrange {a : Arrangement} {p p' : Position} :
    C.Keeps a → C.position p p' → Step.Corresponds C Begins (.arrange a p) (.arrange a p')
  | through (selector : LambdaSelector) (lambda : Nat) {body body' : Formula} {p p' : Position} :
    Formula.Corresponds C Begins body body' → C.position p p' →
      Step.Corresponds C Begins (.through selector lambda body p)
        (.through selector lambda body' p')

/-- Whether the steps of two lookups correspond, one by one. -/
inductive Step.AllCorrespond (C : Correspondence) (Begins : Start → Prop) :
    List Step → List Step → Prop
  | nil : Step.AllCorrespond C Begins [] []
  | cons {s s' : Step} {ss ss' : List Step} :
    Step.Corresponds C Begins s s' → Step.AllCorrespond C Begins ss ss' →
      Step.AllCorrespond C Begins (s :: ss) (s' :: ss')

end

namespace Formula.Corresponds

variable {C : Correspondence} {Begins : Start → Prop} {f f' : Formula}

theorem position (h : f.Corresponds C Begins f') : C.position f.position f'.position := by
  cases h <;> assumption

/-- Corresponding formulas announce the same. -/
theorem kind_eq {f f' : Formula} (h : f.Corresponds C Begins f') : f'.kind = f.kind := by
  cases h with
  | constant hv _ => exact hv.kind_eq
  | assert hf _ => rw [Formula.kind, Formula.kind, kind_eq hf]
  | fallback hf hg _ => rw [Formula.kind, Formula.kind, kind_eq hf, kind_eq hg]
  | apply | binary | both | either | test | concatenate | choose | now | aggregate | aggregateBy
  | lookup | follow | operation => rfl

end Formula.Corresponds

theorem Step.AllCorrespond.isEmpty_eq {C : Correspondence} {Begins : Start → Prop}
    {steps steps' : List Step} (h : Step.AllCorrespond C Begins steps steps') :
    steps'.isEmpty = steps.isEmpty := by
  cases h <;> rfl

/-! ### Contexts -/

/-- Whether two bindings are of one lambda and one position, with items that correspond. -/
structure Binding.Corresponds (C : Correspondence) (b b' : Binding) : Prop where
  lambda_eq : b'.lambda = b.lambda
  index_eq : b'.index = b.index
  item : C.node b.item b'.item

/-- Whether lookups that begin where `Begins` allows it begin with corresponding values in two
contexts. -/
structure Context.Corresponds (C : Correspondence) (Begins : Start → Prop) (c c' : Context) :
    Prop where
  options_eq : c'.options = c.options
  now_eq : c'.now = c.now
  root_path : C.path c.document.root.path c'.document.root.path
  computed : ∀ s, C.node (.scalar (.at (.root c.document.id)) s)
    (.scalar (.at (.root c'.document.id)) s)
  property : ∀ name scope, Begins (.property name scope) →
    Option.Rel C.node (Page.firstMember? name (scope.pages c.document))
      (Page.firstMember? name (scope.pages c'.document))
  this : Begins .this → C.node c.document.root c'.document.root
  parent : Begins .parent →
    Option.Rel C.node (c.document.ancestors.head?.map (·.root))
      (c'.document.ancestors.head?.map (·.root))
  bindings : List.Forall₂ (Binding.Corresponds C) c.bindings c'.bindings

namespace Context.Corresponds

variable {C : Correspondence} {Begins : Start → Prop} {c c' : Context}

theorem bind (h : c.Corresponds C Begins c') (lambda : Nat) {p p' : Node × Nat}
    (hp : C.Items p p') :
    (c.bind lambda p.1 p.2).Corresponds C Begins (c'.bind lambda p'.1 p'.2) where
  options_eq := h.options_eq
  now_eq := h.now_eq
  root_path := h.root_path
  computed := h.computed
  property := h.property
  this := h.this
  parent := h.parent
  bindings := .cons ⟨rfl, hp.2, hp.1⟩ h.bindings

/-- A lambda is bound in both contexts or in none. -/
theorem binding? (h : c.Corresponds C Begins c') (lambda : Nat) :
    Option.Rel (Binding.Corresponds C) (c.binding? lambda) (c'.binding? lambda) := by
  have hbindings := h.bindings
  rw [Context.binding?, Context.binding?]
  generalize c.bindings = bs at hbindings ⊢
  generalize c'.bindings = bs' at hbindings ⊢
  induction hbindings with
  | nil => exact .none
  | cons hb _ ih =>
    rw [List.find?_cons, List.find?_cons, hb.lambda_eq]
    split
    · exact .some hb
    · exact ih

theorem resolve (h : c.Corresponds C Begins c') {start : Start} (hstart : Begins start) :
    C.Outcomes C.Values (start.resolve c) (start.resolve c') := by
  cases start with
  | property name scope => exact .ok (.ofNode? (h.property name scope hstart))
  | this => exact .ok (.node (h.this hstart))
  | parent => exact .ok (.ofNode? (h.parent hstart))
  | parameter lambda name role =>
    have hbinding := h.binding? lambda
    rw [Start.resolve, Start.resolve]
    generalize c.binding? lambda = b at hbinding ⊢
    generalize c'.binding? lambda = b' at hbinding ⊢
    cases hbinding with
    | none => exact .error (.broken _)
    | some hb =>
      cases role with
      | item => exact .ok (.node hb.item)
      | index =>
        simp only [hb.index_eq]
        exact .ok (.computed rfl)

theorem searched (h : c.Corresponds C Begins c') (start : Start) :
    List.Forall₂ (fun n n' => C.path n.path n'.path) (start.searched c) (start.searched c') := by
  cases start with
  | property name scope =>
    cases scope with
    | all | own => exact .cons h.root_path .nil
    | inherited => exact .nil
  | this | parent | parameter => exact .nil

end Context.Corresponds

/-! ### Values of formulas -/

section Evaluation

open Correspondence (Runs)

mutual

/-- Corresponding formulas have corresponding values in corresponding contexts. -/
theorem evaluate_corresponds {C : Correspondence} {Begins : Start → Prop} {c c' : Context}
    (hc : c.Corresponds C Begins c') {f f' : Formula} (h : f.Corresponds C Begins f') :
    C.Runs C.Values (evaluate c f) (evaluate c' f') := by
  cases h with
  | constant hv _ =>
    rw [evaluate, evaluate]
    exact .pure hv
  | apply function hf _ =>
    rw [evaluate, evaluate, hc.options_eq]
    exact (evaluate_corresponds hc hf).bind fun v v' hv =>
      .ofExcept (Correspondence.unary ⟨hv, hf.position⟩ function)
  | assert hf hp =>
    rw [evaluate, evaluate]
    exact (evaluate_corresponds hc hf).bind fun v v' hv =>
      .ofExcept (Correspondence.asserted hv hp)
  | binary o hf hg hp =>
    rw [evaluate, evaluate, hc.options_eq]
    exact (evaluate_corresponds hc hf).bind fun a a' ha =>
      (evaluate_corresponds hc hg).bind fun b b' hb =>
        .ofExcept (Correspondence.binary hp ⟨ha, hf.position⟩ ⟨hb, hg.position⟩ o)
  | both hf hg _ =>
    rw [evaluate, evaluate]
    refine (evaluate_corresponds hc hf).bind fun a a' ha =>
      (Runs.ofExcept (Correspondence.toBoolean ha hf.position)).bind_eq fun holds =>
        .ite ?_ (.pure (.computed rfl))
    exact (evaluate_corresponds hc hg).bind fun b b' hb =>
      (Runs.ofExcept (Correspondence.toBoolean hb hg.position)).bind_eq fun holds =>
        .pure (.computed rfl)
  | either hf hg _ =>
    rw [evaluate, evaluate]
    refine (evaluate_corresponds hc hf).bind fun a a' ha =>
      (Runs.ofExcept (Correspondence.toBoolean ha hf.position)).bind_eq fun holds =>
        .ite (.pure (.computed rfl)) ?_
    exact (evaluate_corresponds hc hg).bind fun b b' hb =>
      (Runs.ofExcept (Correspondence.toBoolean hb hg.position)).bind_eq fun holds =>
        .pure (.computed rfl)
  | @fallback f f' g g' p p' hf hg _ =>
    rw [evaluate, evaluate, hc.options_eq, hg.kind_eq]
    refine (evaluate_corresponds hc hf).bind fun v v' hv => ?_
    rw [hv.isMissing_eq]
    refine .ite (evaluate_corresponds hc hg) ?_
    -- both alternatives announce one type, to which both values convert or neither
    rcases g.kind.type? with _ | type
    · exact .pure hv
    · simp only [Correspondence.convert?_eq hv type]
      rcases hconverted : v.convert? c.options type with _ | w
      · exact evaluate_corresponds hc hg
      · have hw : w.isComputed := Value.isComputed_of_convert? hconverted
        exact .pure (.computed hw)
  | test t hf hg _ =>
    rw [evaluate, evaluate]
    exact (evaluate_corresponds hc hf).bind fun a a' ha =>
      (Runs.ofExcept (Correspondence.toText ha hf.position)).bind_eq fun s =>
        (evaluate_corresponds hc hg).bind fun b b' hb =>
          (Runs.ofExcept (Correspondence.toText hb hg.position)).bind_eq fun t =>
            .pure (.computed rfl)
  | concatenate hfs _ =>
    rw [evaluate, evaluate]
    exact (evaluateTexts_corresponds hc hfs).bind_eq fun texts => .pure (.computed rfl)
  | choose hf hg hh _ =>
    rw [evaluate, evaluate]
    exact (evaluate_corresponds hc hf).bind fun v v' hv =>
      (Runs.ofExcept (Correspondence.toBoolean hv hf.position)).bind_eq fun holds =>
        .ite (evaluate_corresponds hc hg) (evaluate_corresponds hc hh)
  | now _ =>
    rw [evaluate, evaluate, hc.now_eq]
    exact .pure (.computed rfl)
  | aggregate a hf _ =>
    rw [evaluate, evaluate]
    exact (evaluate_corresponds hc hf).bind fun v v' hv =>
      (Runs.ofExcept (Correspondence.itemsOf hv hf.position a.name)).bind fun ns ns' hns =>
        Correspondence.aggregated hf.position hns a
  | aggregateBy a lambda hf hbody _ =>
    rw [evaluate, evaluate]
    refine (evaluate_corresponds hc hf).bind fun v v' hv =>
      (Runs.ofExcept (Correspondence.itemsOf hv hf.position a.name)).bind fun ns ns' hns =>
        Correspondence.runWith (fun p p' hp => ?_) hns a
    -- the body of the lambda is evaluated with corresponding items as its parameter
    exact (evaluate_corresponds (hc.bind lambda hp) hbody).bind fun w w' hw =>
      .pure ⟨hw, hbody.position⟩
  | lookup hstart hsteps _ =>
    rw [evaluate, evaluate]
    -- first come the values that are searched for the name, then those that the lookup begins with
    refine .see (Correspondence.unnoticed (hc.searched _) true false) ?_
    refine (Runs.ofExcept (hc.resolve hstart)).bind fun first first' hfirst => ?_
    rw [hsteps.isEmpty_eq]
    refine .ite (.see hfirst.sightings (.pure hfirst)) ?_
    have hview := Correspondence.Views.ofValue hfirst hc.computed
    exact (evaluateSteps_corresponds hc true hview hsteps).bind
      fun view view' hview => .see hview.toValue.sightings (.pure hview.toValue)
  | follow hbase hsteps _ =>
    rw [evaluate, evaluate]
    refine (evaluate_corresponds hc hbase).bind fun first first' hfirst => ?_
    rw [hsteps.isEmpty_eq]
    refine .ite (.pure hfirst) ?_
    have hview := Correspondence.Views.ofValue hfirst hc.computed
    exact (evaluateSteps_corresponds hc false hview hsteps).bind
      fun view view' hview => .pure hview.toValue
  | operation ho hfs _ =>
    rw [evaluate, evaluate]
    exact (evaluateAs_corresponds hc _ hfs).bind_eq fun values => .pure (ho values)
termination_by sizeOf f

theorem evaluateTexts_corresponds {C : Correspondence} {Begins : Start → Prop} {c c' : Context}
    (hc : c.Corresponds C Begins c') {fs fs' : List Formula}
    (h : Formula.AllCorrespond C Begins fs fs') :
    C.Runs Eq (evaluateTexts c fs) (evaluateTexts c' fs') := by
  cases h with
  | nil =>
    rw [evaluateTexts, evaluateTexts]
    exact .pure rfl
  | cons hf hfs =>
    rw [evaluateTexts, evaluateTexts]
    exact (evaluate_corresponds hc hf).bind fun v v' hv =>
      (Runs.ofExcept (Correspondence.toText hv hf.position)).bind_eq fun s =>
        (evaluateTexts_corresponds hc hfs).bind_eq fun rest => .pure rfl
termination_by sizeOf fs

theorem evaluateAs_corresponds {C : Correspondence} {Begins : Start → Prop} {c c' : Context}
    (hc : c.Corresponds C Begins c') (type : ScalarType) {fs fs' : List Formula}
    (h : Formula.AllCorrespond C Begins fs fs') :
    C.Runs Eq (evaluateAs c type fs) (evaluateAs c' type fs') := by
  cases h with
  | nil =>
    rw [evaluateAs, evaluateAs]
    exact .pure rfl
  | cons hf hfs =>
    rw [evaluateAs, evaluateAs, hc.options_eq]
    exact (evaluate_corresponds hc hf).bind fun v v' hv =>
      (Runs.ofExcept (Correspondence.expect hv hf.position type)).bind_eq fun w =>
        (evaluateAs_corresponds hc type hfs).bind_eq fun rest => .pure rfl
termination_by sizeOf fs

theorem evaluateSteps_corresponds {C : Correspondence} {Begins : Start → Prop} {c c' : Context}
    (hc : c.Corresponds C Begins c') (isTracked : Bool) {view view' : View}
    (hview : C.Views view view') {steps steps' : List Step}
    (h : Step.AllCorrespond C Begins steps steps') :
    C.Runs C.Views (evaluateSteps c isTracked view steps)
      (evaluateSteps c' isTracked view' steps') := by
  cases h with
  | nil =>
    rw [evaluateSteps, evaluateSteps]
    exact .pure hview
  | cons hstep hsteps =>
    rw [evaluateSteps, evaluateSteps]
    refine .see ?_ ?_
    · cases isTracked
      · exact .nil
      · exact Correspondence.sightingsOf hview.nodes false
    · exact (evaluateStep_corresponds hc isTracked hview hstep).bind fun next next' hnext =>
        evaluateSteps_corresponds hc isTracked hnext hsteps
termination_by sizeOf steps

theorem evaluateStep_corresponds {C : Correspondence} {Begins : Start → Prop} {c c' : Context}
    (hc : c.Corresponds C Begins c') (isTracked : Bool) {view view' : View}
    (hview : C.Views view view') {step step' : Step} (h : Step.Corresponds C Begins step step') :
    C.Runs C.Views (evaluateStep c isTracked view step)
      (evaluateStep c' isTracked view' step') := by
  cases h with
  | member name =>
    rw [evaluateStep, evaluateStep]
    exact .see (Correspondence.unnoticed_of_nodes hview.searched isTracked false)
      (.pure (hview.member name))
  | index hfs =>
    rw [evaluateStep, evaluateStep]
    exact evaluateIndexes_corresponds hc isTracked hview hfs
  | positions hfs hp =>
    rw [evaluateStep, evaluateStep]
    exact (Runs.ofExcept (Correspondence.itemsOf hview.toValue hp "At")).bind fun ns ns' hns =>
      (evaluateAt_corresponds hc isTracked hns .none hfs).bind fun found found' hfound =>
        .pure (.single hfound)
  | @arrange a p p' ha hp =>
    rw [evaluateStep, evaluateStep]
    refine (Runs.ofExcept (Correspondence.itemsOf hview.toValue hp a.name)).bind
      fun ns ns' hns => .see ?_ (.pure (ha ns ns' hns))
    exact Correspondence.surveyed hns isTracked a
  | through selector lambda hbody hp =>
    rw [evaluateStep, evaluateStep]
    refine (Runs.ofExcept (Correspondence.itemsOf hview.toValue hp selector.name)).bind
      fun ns ns' hns => .see (Correspondence.unnoticed_of_nodes hns isTracked false) ?_
    refine Correspondence.select (fun p p' hp => ?_) hns selector
    exact (evaluate_corresponds (hc.bind lambda hp) hbody).bind fun w w' hw =>
      .pure ⟨hw, hbody.position⟩
termination_by sizeOf step

theorem evaluateIndexes_corresponds {C : Correspondence} {Begins : Start → Prop} {c c' : Context}
    (hc : c.Corresponds C Begins c') (isTracked : Bool) {view view' : View}
    (hview : C.Views view view') {fs fs' : List Formula}
    (h : Formula.AllCorrespond C Begins fs fs') :
    C.Runs C.Views (evaluateIndexes c isTracked view fs)
      (evaluateIndexes c' isTracked view' fs') := by
  cases h with
  | nil =>
    rw [evaluateIndexes, evaluateIndexes]
    exact .pure hview
  | cons hf hfs =>
    rw [evaluateIndexes, evaluateIndexes]
    refine (evaluate_corresponds hc hf).bind fun v v' hv =>
      (Runs.ofExcept (Correspondence.index ⟨hv, hf.position⟩)).bind_eq fun index =>
        .see (Correspondence.unnoticed_of_nodes (hview.counted index) isTracked false) ?_
    refine evaluateIndexes_corresponds hc isTracked ?_ hfs
    cases index with
    | none => exact .single .none
    | some i => exact hview.item i
termination_by sizeOf fs

theorem evaluateAt_corresponds {C : Correspondence} {Begins : Start → Prop} {c c' : Context}
    (hc : c.Corresponds C Begins c') (isTracked : Bool) {ns ns' : List Node}
    (hns : List.Forall₂ C.node ns ns') {found found' : Option Node}
    (hfound : Option.Rel C.node found found') {fs fs' : List Formula}
    (h : Formula.AllCorrespond C Begins fs fs') :
    C.Runs (Option.Rel C.node) (evaluateAt c isTracked ns found fs)
      (evaluateAt c' isTracked ns' found' fs') := by
  cases h with
  | nil =>
    rw [evaluateAt, evaluateAt]
    exact .pure hfound
  | cons hf hfs =>
    rw [evaluateAt_cons, evaluateAt_cons]
    refine (evaluate_corresponds hc hf).bind fun v v' hv =>
      (Runs.ofExcept (Correspondence.index ⟨hv, hf.position⟩)).bind_eq fun index =>
        .see (Correspondence.unnoticed_of_nodes
          (Correspondence.Views.counted (.many hns) index) isTracked false) ?_
    -- the positions that are left count in what has been found at this one
    have hitem : Option.Rel C.node (index.bind fun i => ns[i]?) (index.bind fun i => ns'[i]?) := by
      cases index with
      | none => exact .none
      | some i => exact Correspondence.getElem? hns i
    generalize (index.bind fun i => ns[i]?) = item at hitem ⊢
    generalize (index.bind fun i => ns'[i]?) = item' at hitem ⊢
    cases hitem with
    | none => exact .pure .none
    | some hn => exact evaluateAt_corresponds hc isTracked (Correspondence.items hn) (.some hn) hfs
termination_by sizeOf fs

end

end Evaluation

end DocQuery
