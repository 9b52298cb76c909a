/-
Aggregates of what a projection gives.

* `Number.Same` — numbers that are the same, up to the sign of a zero;
* `Number.Respects` — sums, quotients and comparisons do not tell related numbers apart;
* `Tally.Alike.exists_collect` — going through two collections whose numbers are related;
* `exists_select_project` — a projection that gets a single value for each item;
* `aggregates_of_projections` — an aggregate with a selector is one of a projection, and a count
  with a predicate is one of a filter.

Design notes: an aggregate with a selector folds the numbers that the selector computes. Behind a
projection, the same numbers have become texts of a document, and are read again. What is read may
be the zero of the other sign, so the two loops are compared item by item for any relation that
their arithmetic respects; equality is one such relation, and equality up to the sign of a zero is
the other.
-/
import DocQuery.Proofs.Formula.Flattening
import DocQuery.Proofs.Value.Storing

namespace DocQuery

/-! ### Numbers up to the sign of a zero -/

namespace Number

/-- Whether a number is a zero, of either sign. -/
def IsZero (x : Float) : Prop := x = 0 ∨ x = -0

/-- Whether two numbers are the same, or equal each other. -/
def Same (x y : Float) : Prop := y = x ∨ (y == x) = true

variable {x y x' y' z : Float}

/-- What equals a number without being the same is the zero of the other sign. -/
theorem same_iff : Same x y ↔ y = x ∨ IsZero x ∧ IsZero y := by
  rw [Same, Float.beq_iff_ne_nan_and_eq, IsZero, IsZero]
  constructor
  · rintro (rfl | ⟨-, -, rfl | ⟨rfl, rfl⟩ | ⟨rfl, rfl⟩⟩)
    · exact .inl rfl
    · exact .inl rfl
    · exact .inr ⟨.inr rfl, .inl rfl⟩
    · exact .inr ⟨.inl rfl, .inr rfl⟩
  · rintro (rfl | ⟨rfl | rfl, rfl | rfl⟩)
    · exact .inl rfl
    · exact .inl rfl
    · exact .inr (by decide +kernel)
    · exact .inr (by decide +kernel)
    · exact .inl rfl

theorem Same.trans (hxy : Same x y) (hyz : Same y z) : Same x z := by
  rw [same_iff] at *
  rcases hxy with rfl | ⟨hx, hy⟩
  · exact hyz
  · rcases hyz with rfl | ⟨-, hz⟩
    · exact .inr ⟨hx, hy⟩
    · exact .inr ⟨hx, hz⟩

open Float.Model UnpackedFloat

theorem IsZero.unpack (h : IsZero x) : ∃ s, x.toModel.unpack = .zero s := by
  rcases h with rfl | rfl
  · exact ⟨.positive, rfl⟩
  · exact ⟨.negative, rfl⟩

theorem isZero_pack (s : Sign) : IsZero ⟨pack (.zero s)⟩ := by
  cases s with
  | positive => exact .inl (by decide +kernel)
  | negative => exact .inr (by decide +kernel)

/-- What takes zeros to a single number, or to zeros, takes equal numbers to equal ones. -/
theorem Same.map_parts (h : Same x y) (f : UnpackedFloat → UnpackedFloat)
    (hf : ∀ s t, f (.zero s) = f (.zero t) ∨
      ∃ s' t', f (.zero s) = .zero s' ∧ f (.zero t) = .zero t') :
    Same ⟨pack (f x.toModel.unpack)⟩ ⟨pack (f y.toModel.unpack)⟩ := by
  rcases same_iff.1 h with rfl | ⟨hx, hy⟩
  · exact .inl rfl
  obtain ⟨s, hs⟩ := hx.unpack
  obtain ⟨t, ht⟩ := hy.unpack
  rw [same_iff, hs, ht]
  rcases hf s t with heq | ⟨s', t', hs', ht'⟩
  · rw [heq]
    exact .inl rfl
  · rw [hs', ht']
    exact .inr ⟨isZero_pack s', isZero_pack t'⟩

/-- The sign of a zero matters to a sum only if this is a zero itself. -/
theorem Same.add_right (h : Same x y) (z : Float) : Same (x + z) (y + z) := by
  refine h.map_parts (fun part => UnpackedFloat.add .binary64 part z.toModel.unpack) ?_
  intro s t
  cases z.toModel.unpack with
  | notANumber | infinity | finite => exact .inl rfl
  | zero u => cases s <;> cases t <;> cases u <;> exact .inr ⟨_, _, rfl, rfl⟩

theorem Same.add_left (h : Same x y) (z : Float) : Same (z + x) (z + y) := by
  refine h.map_parts (fun part => UnpackedFloat.add .binary64 z.toModel.unpack part) ?_
  intro s t
  cases z.toModel.unpack with
  | notANumber | infinity | finite => exact .inl rfl
  | zero u => cases s <;> cases t <;> cases u <;> exact .inr ⟨_, _, rfl, rfl⟩

/-- The sign of a zero matters to a quotient only if this is a zero itself. -/
theorem Same.div_right (h : Same x y) (z : Float) : Same (x / z) (y / z) := by
  refine h.map_parts (fun part => UnpackedFloat.div .binary64 part z.toModel.unpack) ?_
  intro s t
  cases z.toModel.unpack with
  | notANumber | zero => exact .inl rfl
  | infinity | finite => exact .inr ⟨_, _, rfl, rfl⟩

theorem Same.order?_eq (h : Same x y) (z : Float) : order? y z = order? x z := by
  rcases same_iff.1 h with rfl | ⟨rfl | rfl, rfl | rfl⟩
  · rfl
  · rfl
  · exact order?_neg_zero z
  · exact (order?_neg_zero z).symm
  · rfl

theorem Same.order?_eq_right (h : Same x y) (z : Float) : order? z y = order? z x := by
  rw [order?_swap y z, order?_swap x z, h.order?_eq]

theorem order?_eq_lt_iff : order? x y = some .lt ↔ x < y := by
  rw [order?_eq, lt_iff]

/-- Whether arithmetic does not tell related numbers apart: sums and quotients are related again,
and comparisons come out the same. -/
structure Respects (R : Float → Float → Prop) : Prop where
  refl (x : Float) : R x x
  add {x y x' y' : Float} : R x y → R x' y' → R (x + x') (y + y')
  div {x y : Float} (z : Float) : R x y → R (x / z) (y / z)
  lt_iff {x y x' y' : Float} : R x y → R x' y' → (x < x' ↔ y < y')

theorem respects_eq : Respects Eq where
  refl x := rfl
  add h h' := by rw [h, h']
  div z h := by rw [h]
  lt_iff h h' := by rw [h, h']

theorem respects_same : Respects Same where
  refl x := .inl rfl
  add h h' := (h.add_right _).trans (h'.add_left _)
  div z h := h.div_right z
  lt_iff h h' := by
    rw [← order?_eq_lt_iff, ← order?_eq_lt_iff, h.order?_eq, h'.order?_eq_right]

end Number

/-! ### Two loops over related numbers -/

namespace Tally

/-- Whether two aggregates of numbers know the same of their items, up to a relation of numbers. -/
inductive Alike (R : Float → Float → Prop) : Tally → Tally → Prop
  | sum {x y : Float} : R x y → Alike R (.sum x) (.sum y)
  | average {x y : Float} (n : Nat) : R x y → Alike R (.average x n) (.average y n)
  | extreme {best best' : Option Float} (isGreatest : Bool) : Option.Rel R best best' →
    Alike R (.extreme best isGreatest) (.extreme best' isGreatest)

variable {R : Float → Float → Prop} {t t' : Tally}

theorem isBetter_eq (hR : Number.Respects R) {best best' : Option Float}
    (hbest : Option.Rel R best best') (isGreatest : Bool) {x y : Float} (hxy : R x y) :
    isBetter best' isGreatest y = isBetter best isGreatest x := by
  cases hbest with
  | none => rfl
  | some hb =>
    rw [isBetter, isBetter, decide_eq_decide.2 (hR.lt_iff hb hxy),
      decide_eq_decide.2 (hR.lt_iff hxy hb)]

/-- One item more, of which the two aggregates get related numbers. -/
theorem Alike.exists_add (h : Alike R t t') (hR : Number.Respects R) {a a' : Operand} {x y : Float}
    (ha : a.number = .ok x) (ha' : a'.number = .ok y) (hxy : R x y) :
    ∃ u u', t.add a = .ok (u, true) ∧ t'.add a' = .ok (u', true) ∧ Alike R u u' := by
  cases h with
  | sum htotal =>
    refine ⟨_, _, ?_, ?_, .sum (hR.add htotal hxy)⟩
    · rw [add, ha, Except.map]
    · rw [add, ha', Except.map]
  | average n htotal =>
    refine ⟨_, _, ?_, ?_, .average (n + 1) (hR.add htotal hxy)⟩
    · rw [add, ha, Except.map]
    · rw [add, ha', Except.map]
  | extreme isGreatest hbest =>
    refine ⟨_, _, by rw [add, ha, Except.map], by rw [add, ha', Except.map], .extreme _ ?_⟩
    rw [isBetter_eq hR hbest _ hxy]
    split
    · exact .some hxy
    · exact hbest

/-- Whether two loops get related numbers for an item each. -/
def GetAlike (R : Float → Float → Prop) (valueOf valueOf' : Node × Nat → Traced Operand)
    (item item' : Node × Nat) : Prop :=
  ∃ a a' x y, (valueOf item).outcome = .ok a ∧ (valueOf' item').outcome = .ok a' ∧
    a.number = .ok x ∧ a'.number = .ok y ∧ R x y

/-- Two loops over as many items, with related numbers for these, come to related results. -/
theorem Alike.exists_collect (hR : Number.Respects R)
    {valueOf valueOf' : Node × Nat → Traced Operand} {items items' : List (Node × Nat)}
    (hitems : List.Forall₂ (GetAlike R valueOf valueOf') items items') (h : Alike R t t') :
    ∃ u u', (t.collect valueOf items).outcome = .ok u ∧
      (t'.collect valueOf' items').outcome = .ok u' ∧ Alike R u u' := by
  induction hitems generalizing t t' with
  | nil => exact ⟨t, t', rfl, rfl, h⟩
  | cons hitem _ ih =>
    -- no number ends a loop early, so both go on with what one step has left them
    obtain ⟨a, a', x, y, ha, ha', hx, hy, hxy⟩ := hitem
    obtain ⟨u, u', hu, hu', hadd⟩ := h.exists_add hR hx hy hxy
    obtain ⟨w, w', hw, hw', hrest⟩ := ih hadd
    refine ⟨w, w', ?_, ?_, hrest⟩
    · rw [collect, Traced.outcome_bind, ha, Except.ok_bind, hu]
      exact hw
    · rw [collect, Traced.outcome_bind, ha', Except.ok_bind, hu']
      exact hw'

theorem Alike.isCopy_result (hR : Number.Respects R) (h : Alike R t t') :
    Value.IsCopy R t.result t'.result := by
  cases h with
  | sum htotal => exact .number htotal
  | average n htotal =>
    cases n with
    | zero => exact .refl _
    | succ n => exact .number (hR.div _ htotal)
  | extreme _ hbest =>
    cases hbest with
    | none => exact .refl _
    | some hx => exact .number hx

end Tally

/-- The aggregates that make something of the numbers of a collection. -/
def Aggregate.ofNumbers : List Aggregate := [.sum, .average, .min, .max]

theorem Aggregate.lookup_name (a : Aggregate) :
    Vocabulary.standard.functions.lookup a.name = some (.aggregate a) := by
  cases a <;> rfl

theorem Aggregate.admits_one {a : Aggregate} (ha : a ∈ ofNumbers) : a.arity.admits 1 := by
  cases a with
  | sum | average | min | max => rfl
  | count | any | all => simp [ofNumbers] at ha

theorem Aggregate.run_eq_runWith {a : Aggregate} (ha : a ∈ ofNumbers) (p : Position)
    (items : List Node) :
    a.run p items = a.runWith (fun item => pure ⟨.node item.1, p⟩) items := by
  cases a with
  | sum | average | min | max => rfl
  | count | any | all => simp [ofNumbers] at ha

theorem Aggregate.alike_start {R : Float → Float → Prop} (hR : Number.Respects R) {a : Aggregate}
    (ha : a ∈ ofNumbers) : Tally.Alike R a.start a.start := by
  cases a with
  | sum => exact .sum (hR.refl 0)
  | average => exact .average 0 (hR.refl 0)
  | min | max => exact .extreme _ .none
  | count | any | all => simp [ofNumbers] at ha

/-- An aggregate of related numbers is the same, or a related number. -/
theorem Aggregate.exists_runWith_alike {R : Float → Float → Prop} (hR : Number.Respects R)
    {a : Aggregate} (ha : a ∈ ofNumbers) {valueOf valueOf' : Node × Nat → Traced Operand}
    {items items' : List Node}
    (hitems : List.Forall₂ (Tally.GetAlike R valueOf valueOf') items.zipIdx items'.zipIdx) :
    ∃ v v', (a.runWith valueOf items).outcome = .ok v ∧
      (a.runWith valueOf' items').outcome = .ok v' ∧ Value.IsCopy R v v' := by
  obtain ⟨u, u', hu, hu', halike⟩ := (alike_start hR ha).exists_collect hR hitems
  refine ⟨u.result, u'.result, ?_, ?_, halike.isCopy_result hR⟩
  · rw [runWith, Traced.outcome_bind, hu]
    rfl
  · rw [runWith, Traced.outcome_bind, hu']
    rfl

/-! ### Projections that get a single value for each item -/

/-- A list with its indexes is related to another one as this is. -/
theorem forall₂_zipIdx_iff {α : Type} {P : α → Node → Prop} {items : List α} {ns : List Node} :
    List.Forall₂ (fun x y => P x y.1) items ns.zipIdx ↔ List.Forall₂ P items ns := by
  rw [← List.forall₂_map_right_iff (f := Prod.fst), List.zipIdx_map_fst]

/-- A projection that gets a single value for each item comes to these values. -/
theorem exists_projectItems {P : Node × Nat → Node → Prop} (project : Node × Nat → Traced Value)
    {items : List (Node × Nat)}
    (h : ∀ x ∈ items, ∃ v m, (project x).outcome = .ok v ∧ v.contribution x.1.path = [m] ∧ P x m) :
    ∃ ms, (projectItems project items).outcome = .ok ms ∧ List.Forall₂ P items ms := by
  induction items with
  | nil => exact ⟨[], rfl, .nil⟩
  | cons x items ih =>
    obtain ⟨⟨v, m, hv, hm, hx⟩, hrest⟩ := List.forall_mem_cons.1 h
    obtain ⟨ms, hms, hall⟩ := ih hrest
    refine ⟨m :: ms, ?_, .cons hx hall⟩
    rw [projectItems, Traced.outcome_bind, hv, Except.ok_bind, Traced.outcome_bind, hms]
    exact congrArg (fun part => Except.ok (part ++ ms)) hm

namespace Value

variable {v : Value} {p : Position}

/-- What counts as a truth value contributes a single value, which counts as the same one. -/
theorem exists_contribution_of_toBoolean {b : Bool} (h : v.toBoolean p = .ok b) (path : Path) :
    ∃ m, v.contribution path = [m] ∧ ∀ q, (Value.node m).toBoolean q = .ok b := by
  cases v with
  | boolean value =>
    obtain rfl := Except.ok.inj h
    refine ⟨_, rfl, fun q => ?_⟩
    cases value <;> rfl
  | node n =>
    cases n with
    | scalar place s => exact ⟨_, rfl, fun q => (toBoolean_congr rfl).1 h⟩
    | array | object => cases h
  | _ => cases h

/-- What counts as a number contributes a single value, which counts as the same number, or as what
the text of a computed number reads as. -/
theorem exists_contribution_of_toNumber {R : Float → Float → Prop} (hR : Number.Respects R)
    {x y : Float} (h : v.toNumber p = .ok x)
    (hread : Number.readNumber? (Number.display x).toList = some y) (hxy : R x y) (path : Path) :
    ∃ m z, v.contribution path = [m] ∧ R x z ∧ ∀ q, (Value.node m).toNumber q = .ok z := by
  cases v with
  | number value =>
    -- only a computed number is written as a text; texts and values of documents stay as they are
    obtain rfl := Except.ok.inj h
    obtain ⟨-, hboolean, hnumber⟩ := bare_of_reads hread
    have hatom : (Value.number y).atom? =
        (Value.node (.scalar (.at path) (.bare (Number.display value)))).atom? := by
      show some (Atom.number y) = Scalar.atom? (.bare (Number.display value))
      rw [Scalar.atom?, hboolean, hnumber]
      rfl
    exact ⟨_, y, rfl, hxy, fun q => (toNumber_congr (p := q) hatom).1 rfl⟩
  | text s =>
    have hatom : (Value.text s).atom? =
        (Value.node (.scalar (.at path) (.quoted s))).atom? := rfl
    exact ⟨_, x, rfl, hR.refl x, fun q => (toNumber_congr hatom).1 h⟩
  | node n =>
    cases n with
    | scalar place s => exact ⟨_, x, rfl, hR.refl x, fun q => (toNumber_congr rfl).1 h⟩
    | array | object => cases h
  | _ => cases h

end Value

section Lambdas

variable {c : Context} {lambda : Nat} {body : Formula} {items : List Node} {x : Node × Nat}
  {v : Value}

/-- What a lambda comes to for an item with its index. -/
def Formula.valueFor (c : Context) (lambda : Nat) (body : Formula) (x : Node × Nat) :
    Except Fault Value :=
  (evaluate (c.bind lambda x.1 x.2) body).outcome

/-- Whether a lambda gives a number for each item, the text of which reads as a related number. -/
def Formula.YieldsNumbers (R : Float → Float → Prop) (c : Context) (lambda : Nat) (body : Formula)
    (items : List Node) : Prop :=
  ∀ x ∈ items.zipIdx, ∃ v d y, body.valueFor c lambda x = .ok v ∧ v.toNumber .start = .ok d ∧
    Number.readNumber? (Number.display d).toList = some y ∧ R d y

/-- Whether a lambda gives a truth value for each item, as `passes` tells. -/
def Formula.Tests (c : Context) (lambda : Nat) (body : Formula) (items : List Node)
    (passes : Node × Nat → Bool) : Prop :=
  ∀ x ∈ items.zipIdx, ∃ v, body.valueFor c lambda x = .ok v ∧ v.toBoolean .start = .ok (passes x)

theorem outcome_interpretFor (h : body.valueFor c lambda x = .ok v) :
    (body.interpretFor c lambda x).outcome = .ok ⟨v, body.position⟩ := by
  rw [Formula.interpretFor, Formula.sense_operand, Traced.outcome_bind,
    show (evaluate (c.bind lambda x.1 x.2) body).outcome = .ok v from h]
  rfl

/-- A projection through a lambda that gives a single value for each item comes to these values. -/
theorem exists_select_project {P : Node × Nat → Node → Prop}
    (h : ∀ x ∈ items.zipIdx, ∃ v m, body.valueFor c lambda x = .ok v ∧
      v.contribution x.1.path = [m] ∧ P x m) :
    ∃ ms, (LambdaSelector.project.select (body.interpretFor c lambda) items).outcome =
      .ok (.many ms) ∧ List.Forall₂ P items.zipIdx ms := by
  obtain ⟨ms, hms, hall⟩ := exists_projectItems
    (fun x => do pure (← body.interpretFor c lambda x).value) fun x hx => by
      obtain ⟨v, m, hv, hm, hP⟩ := h x hx
      refine ⟨v, m, ?_, hm, hP⟩
      rw [Traced.outcome_bind, outcome_interpretFor hv]
      rfl
  refine ⟨ms, ?_, hall⟩
  rw [LambdaSelector.select, Traced.outcome_bind, hms]
  rfl

/-- The numbers that a projection has placed in a document are related to those that the lambda
gives. -/
theorem exists_projected_numbers {R : Float → Float → Prop} (hR : Number.Respects R)
    (h : body.YieldsNumbers R c lambda items) :
    ∃ ms, (LambdaSelector.project.select (body.interpretFor c lambda) items).outcome =
        .ok (.many ms) ∧
      ∀ p, List.Forall₂ (Tally.GetAlike R (body.interpretFor c lambda)
        fun item => pure ⟨.node item.1, p⟩) items.zipIdx ms.zipIdx := by
  obtain ⟨ms, hms, hall⟩ := exists_select_project (P := fun x m => ∀ p i,
    Tally.GetAlike R (body.interpretFor c lambda) (fun item => pure ⟨.node item.1, p⟩) x (m, i))
    fun x hx => by
      obtain ⟨v, d, y, hv, hd, hread, hdy⟩ := h x hx
      obtain ⟨m, z, hm, hdz, hz⟩ := Value.exists_contribution_of_toNumber hR hd hread hdy x.1.path
      exact ⟨v, m, hv, hm, fun p i => ⟨_, _, d, z, outcome_interpretFor hv, rfl,
        (Value.toNumber_congr rfl).1 hd, hz p, hdz⟩⟩
  refine ⟨ms, hms, fun p => ?_⟩
  exact (forall₂_zipIdx_iff.2 hall).imp fun x y hxy => hxy p y.2

/-- An aggregate of the numbers that a lambda gives comes to a value that is related to the one of
the aggregate of their projection. -/
theorem exists_runWith_projected {R : Float → Float → Prop} (hR : Number.Respects R) {a : Aggregate}
    (ha : a ∈ Aggregate.ofNumbers) (h : body.YieldsNumbers R c lambda items) :
    ∃ v ms, (a.runWith (body.interpretFor c lambda) items).outcome = .ok v ∧
      (LambdaSelector.project.select (body.interpretFor c lambda) items).outcome = .ok (.many ms) ∧
      ∀ p, ∃ w, (a.run p ms).outcome = .ok w ∧ Value.IsCopy R v w := by
  obtain ⟨ms, hms, hall⟩ := exists_projected_numbers hR h
  obtain ⟨v, -, hv, -⟩ := Aggregate.exists_runWith_alike hR ha (hall .start)
  -- where the collection stands matters to faults only, and the first loop knows nothing of it
  refine ⟨v, ms, hv, hms, fun p => ?_⟩
  obtain ⟨v', w, hv', hw, hcopy⟩ := Aggregate.exists_runWith_alike hR ha (hall p)
  obtain rfl := Except.ok.inj (hv.symm.trans hv')
  exact ⟨w, by rw [Aggregate.run_eq_runWith ha, hw], hcopy⟩

/-! ### Counts of what passes a test -/

/-- A test that has a known outcome for each item decides, and as many pass as are known to. -/
theorem decides_of_forall₂ {test : Node × Nat → Traced Bool} {items items' : List (Node × Nat)}
    {passes : Node × Nat → Bool}
    (h : List.Forall₂ (fun x y => (test y).outcome = .ok (passes x)) items items') :
    Decides test items' ∧ (chosen test items').length = items.countP passes := by
  induction h with
  | nil => exact ⟨fun x hx => absurd hx List.not_mem_nil, rfl⟩
  | @cons x y _ _ hxy _ ih =>
    have hy := Traced.passes_eq hxy
    refine ⟨decides_cons.2 ⟨hy ▸ hxy, ih.1⟩, ?_⟩
    rw [chosen_cons, hy, List.countP_cons, ← ih.2]
    cases passes x <;> rfl

variable {passes : Node × Nat → Bool}

theorem Formula.Tests.outcome_testOf (h : body.Tests c lambda items passes) (x : Node × Nat)
    (hx : x ∈ items.zipIdx) :
    (testOf (body.interpretFor c lambda) x).outcome = .ok (passes x) := by
  obtain ⟨v, hv, hpasses⟩ := h x hx
  rw [outcome_testOf_interpretFor, show (evaluate (c.bind lambda x.1 x.2) body).outcome = _ from hv]
  exact (Value.toBoolean_congr rfl).1 hpasses

theorem Formula.Tests.decides (h : body.Tests c lambda items passes) :
    Decides (testOf (body.interpretFor c lambda)) items.zipIdx ∧
      (chosen (testOf (body.interpretFor c lambda)) items.zipIdx).length =
        items.zipIdx.countP passes :=
  decides_of_forall₂ (List.forall₂_same.2 h.outcome_testOf)

/-- The truth values that a projection has placed in a document pass for the same items. -/
theorem Formula.Tests.exists_projected (h : body.Tests c lambda items passes) :
    ∃ ms, (LambdaSelector.project.select (body.interpretFor c lambda) items).outcome =
        .ok (.many ms) ∧
      ∀ (lambda' : Nat) (x : String) (p : Position),
        let item := Formula.lookup (.parameter lambda' x .item) [] p
        Decides (testOf (item.interpretFor c lambda')) ms.zipIdx ∧
          (chosen (testOf (item.interpretFor c lambda')) ms.zipIdx).length =
            items.zipIdx.countP passes := by
  obtain ⟨ms, hms, hall⟩ := exists_select_project
    (P := fun x m => ∀ q, (Value.node m).toBoolean q = .ok (passes x)) fun x hx => by
      obtain ⟨v, hv, hpasses⟩ := h x hx
      obtain ⟨m, hm, hboolean⟩ := Value.exists_contribution_of_toBoolean hpasses x.1.path
      exact ⟨v, m, hv, hm, hboolean⟩
  refine ⟨ms, hms, fun lambda' x p => decides_of_forall₂ ?_⟩
  refine (forall₂_zipIdx_iff.2 hall).imp fun _ y hy => ?_
  rw [outcome_testOf_interpretFor, evaluate_item]
  exact hy p

end Lambdas

/-! ### Texts of aggregates and projections -/

section Texts

variable {s : Naming} {c : Context} {dot : Operator} {source lambda : Expr} {v : Value}
  {items : List Node} {body : Formula}

namespace Expr

section Source

variable (hvalue : source.outcome s c = .ok v)
  (hitems : ∀ function p, v.items function p = .ok items)
include hvalue hitems

/-- A collection with a lambda selector behind it comes to what the selector makes of its items. -/
theorem outcome_selecting (hdot : dot.name = pathOperator) {name : String}
    {selector : LambdaSelector}
    (hmeaning : s.vocabulary.selectors.lookup name = some (.lambda selector))
    (hbody : compileLambda s name lambda = .ok body) :
    (source.selecting dot name [lambda]).outcome s c =
      (selector.select (body.interpretFor c s.lambdas.length) items).outcome.map View.toValue := by
  obtain ⟨chain, hchain, -, -, hv⟩ := outcome_eq_ok_iff.1 hvalue
  rw [selecting, outcome_path, link_path s hdot, hchain, Except.ok_bind, link_lambda s hmeaning,
    hbody]
  show (chain.extend [.through selector s.lambdas.length body .start]).outcome c = _
  rw [Chain.outcome_extend_through, Chain.foundItems_of_items hv hitems, Except.ok_bind]

theorem outcome_aggregate {a : Aggregate} (hadmits : a.arity.admits 1)
    (hmeaning : s.vocabulary.functions.lookup a.name = some (.aggregate a)) :
    ∃ p, (Expr.call a.name [source] .start).outcome s c = (a.run p items).outcome := by
  obtain ⟨f, hf, hv⟩ := Except.bind_eq_ok_iff.1 hvalue
  refine ⟨f.position, ?_⟩
  rw [outcome, compile_aggregate s hmeaning hadmits, hf]
  show (evaluate c (.aggregate a f .start)).outcome = _
  rw [evaluate, Traced.outcome_bind, hv, Except.ok_bind, hitems]
  rfl

theorem outcome_aggregateBy {a : Aggregate}
    (hmeaning : s.vocabulary.functions.lookup a.name = some (.aggregate a))
    (hbody : compileLambda s a.name lambda = .ok body) :
    (Expr.call a.name [source, lambda] .start).outcome s c =
      (a.runWith (body.interpretFor c s.lambdas.length) items).outcome := by
  obtain ⟨f, hf, hv⟩ := Except.bind_eq_ok_iff.1 hvalue
  rw [outcome, compile_aggregateBy s hmeaning, hf, Except.ok_bind, hbody]
  exact DocQuery.outcome_aggregateBy a hv hitems

end Source

/-- The forms of an aggregate of numbers, with a lambda and of a projection. The collection may
stand in any form in front of the projection. -/
theorem exists_outcomes_of_numbers (hv : s.vocabulary.Extends .standard)
    (hdot : dot.name = pathOperator) (hvalue : source.outcome s c = .ok v)
    (hitems : ∀ function p, v.items function p = .ok items)
    (hbody : compileLambda s "Select" lambda = .ok body) {R : Float → Float → Prop}
    (hR : Number.Respects R) {a : Aggregate} (ha : a ∈ Aggregate.ofNumbers)
    (h : body.YieldsNumbers R c s.lambdas.length items) :
    ∃ w, (Expr.call a.name [source, lambda] .start).outcome s c = .ok w ∧
      ∀ e : Expr, e.outcome s c = .ok v →
        ∃ w', (Expr.call a.name [e.selecting dot "Select" [lambda]] .start).outcome s c = .ok w' ∧
          Value.IsCopy R w w' := by
  have hmeaning := hv.functions a.name _ a.lookup_name
  obtain ⟨w, ms, hw, hms, hrun⟩ := exists_runWith_projected hR ha h
  refine ⟨w, ?_, fun e he => ?_⟩
  · rw [outcome_aggregateBy hvalue hitems hmeaning (compileLambda_eq_ok_of s hbody a.name), hw]
  · have hprojected := outcome_selecting he hitems hdot (hv.selectors "Select" _ rfl) hbody
    rw [hms] at hprojected
    obtain ⟨p, hp⟩ := outcome_aggregate hprojected (fun _ _ => rfl)
      (Aggregate.admits_one ha) hmeaning
    obtain ⟨w', hw', hcopy⟩ := hrun p
    exact ⟨w', hp.trans hw', hcopy⟩

/-- The sum of no items is zero. The other aggregates of no items are undefined. -/
theorem outcome_aggregateBy_nil (hv : s.vocabulary.Extends .standard)
    (hvalue : source.outcome s c = .ok v) (hitems : ∀ function p, v.items function p = .ok [])
    (hbody : compileLambda s "Select" lambda = .ok body) {a : Aggregate}
    (ha : a ∈ Aggregate.ofNumbers) :
    (Expr.call a.name [source, lambda] .start).outcome s c =
      .ok (if a = .sum then .number 0 else .undefined) := by
  rw [outcome_aggregateBy hvalue hitems (hv.functions a.name _ a.lookup_name)
    (compileLambda_eq_ok_of s hbody a.name)]
  cases a with
  | sum | average | min | max => rfl
  | count | any | all => simp [Aggregate.ofNumbers] at ha

section Counts

variable {passes : Node × Nat → Bool} (hv : s.vocabulary.Extends .standard)
  (hvalue : source.outcome s c = .ok v) (hitems : ∀ function p, v.items function p = .ok items)
  (hbody : compileLambda s "Select" lambda = .ok body)
  (h : body.Tests c s.lambdas.length items passes)
include hv hvalue hitems hbody h

theorem outcome_count_lambda : (Expr.call "Count" [source, lambda] .start).outcome s c =
    .ok (.number (Number.ofInt (items.zipIdx.countP passes))) := by
  have hcount := outcome_aggregateBy (a := .count) hvalue hitems (hv.functions "Count" _ rfl)
    (compileLambda_eq_ok_of s hbody _)
  rw [← h.decides.2, ← outcome_runWith_count h.decides.1]
  exact hcount

theorem outcome_count_filtered (hdot : dot.name = pathOperator) :
    (Expr.call "Count" [source.selecting dot "Where" [lambda]] .start).outcome s c =
      .ok (.number (Number.ofInt (items.zipIdx.countP passes))) := by
  have hfiltered := outcome_selecting hvalue hitems hdot (hv.selectors "Where" _ rfl)
    (compileLambda_eq_ok_of s hbody "Where")
  rw [outcome_select_filter_iff.2 ⟨h.decides.1, rfl⟩] at hfiltered
  obtain ⟨p, hp⟩ := outcome_aggregate (a := .count) hfiltered (fun _ _ => rfl) rfl
    (hv.functions "Count" _ rfl)
  rw [← h.decides.2]
  exact hp

theorem outcome_count_projected (hdot : dot.name = pathOperator) {x : String}
    (hqualifier : Qualifier.ofName? x = none)
    (hconstant : s.vocabulary.constants.lookup x = none) :
    (Expr.call "Count" [source.selecting dot "Select" [lambda], .forEach x (.name x .start)]
        .start).outcome s c =
      .ok (.number (Number.ofInt (items.zipIdx.countP passes))) := by
  obtain ⟨ms, hms, hitem⟩ := h.exists_projected
  have hprojected := outcome_selecting hvalue hitems hdot (hv.selectors "Select" _ rfl) hbody
  rw [hms] at hprojected
  have hparameter := compile_parameter s hqualifier hconstant .start
  rw [← compileLambda_forEach s "Count"] at hparameter
  obtain ⟨hdecides, hlength⟩ := hitem s.lambdas.length x .start
  have hcount := outcome_aggregateBy (a := .count) hprojected (fun _ _ => rfl)
    (hv.functions "Count" _ rfl) hparameter
  rw [← hlength, ← outcome_runWith_count hdecides]
  exact hcount

end Counts

end Expr

/-- An aggregate of the numbers that a lambda gives is the aggregate of their projection, if the
text of each number reads as the number itself. If it may read as the zero of the other sign, the
two aggregates are the same up to the sign of a zero. The sum of no items is zero, and the other
aggregates of no items are undefined. A count of the items that pass a test is the count of those
that a filter keeps, and the count of the truth values of a projection. -/
theorem aggregates_of_projections (hv : s.vocabulary.Extends .standard)
    (hdot : dot.name = pathOperator) {collection : Expr} {text : String} {origin : Position}
    (htext : s.dialect.language.Parses text origin collection)
    (hvalue : outcomeIn s c text origin = .ok v)
    (hitems : ∀ function p, v.items function p = .ok items)
    (hbody : compileLambda s "Select" lambda = .ok body) :
    let l := s.dialect.language
    let sources := [collection, .group collection .start]
    let direct (a : Aggregate) := Expr.call a.name [collection, lambda] .start
    let projected (a : Aggregate) (e : Expr) :=
      Expr.call a.name [e.selecting dot "Select" [lambda]] .start
    (∀ a ∈ Aggregate.ofNumbers,
      (body.YieldsNumbers Eq c s.lambdas.length items → ∃ w, ∀ text origin,
        (l.Parses text origin (direct a) ∨ ∃ e ∈ sources, l.Parses text origin (projected a e)) →
          outcomeIn s c text origin = .ok w) ∧
      (body.YieldsNumbers Number.Same c s.lambdas.length items → ∃ w,
        (∀ text origin, l.Parses text origin (direct a) → outcomeIn s c text origin = .ok w) ∧
        ∀ e ∈ sources, ∀ text origin, l.Parses text origin (projected a e) →
          ∃ w', outcomeIn s c text origin = .ok w' ∧ Value.IsCopy Number.Same w w') ∧
      (items = [] → ∀ text origin,
        (l.Parses text origin (direct a) ∨ ∃ e ∈ sources, l.Parses text origin (projected a e)) →
          outcomeIn s c text origin = .ok (if a = .sum then .number 0 else .undefined))) ∧
    ∀ passes, body.Tests c s.lambdas.length items passes → ∀ text origin,
      (l.Parses text origin (.call "Count" [collection, lambda] .start) ∨
          ∃ e ∈ sources,
            l.Parses text origin (.call "Count" [e.selecting dot "Where" [lambda]] .start) ∨
            ∃ x, Qualifier.ofName? x = none ∧ s.vocabulary.constants.lookup x = none ∧
              l.Parses text origin (.call "Count"
                [e.selecting dot "Select" [lambda], .forEach x (.name x .start)] .start)) →
        outcomeIn s c text origin = .ok (.number (Number.ofInt (items.zipIdx.countP passes))) := by
  intro l sources direct projected
  have houtcome := htext.outcomeIn_eq_ok_iff.1 hvalue
  -- parentheses around the collection are nothing to its value
  have hsource : ∀ e ∈ sources, e.outcome s c = .ok v := by
    intro e he
    rcases List.mem_pair.1 he with rfl | rfl
    · exact houtcome
    · rw [Expr.outcome, compile_group]
      exact houtcome
  have hexact : ∀ a ∈ Aggregate.ofNumbers, body.YieldsNumbers Eq c s.lambdas.length items →
      ∃ w, (direct a).outcome s c = .ok w ∧ ∀ text origin,
        (l.Parses text origin (direct a) ∨ ∃ e ∈ sources, l.Parses text origin (projected a e)) →
          outcomeIn s c text origin = .ok w := by
    intro a ha h
    obtain ⟨w, hw, hprojected⟩ := Expr.exists_outcomes_of_numbers hv hdot houtcome hitems hbody
      Number.respects_eq ha h
    refine ⟨w, hw, fun text origin hparses => ?_⟩
    rcases hparses with hparses | ⟨e, he, hparses⟩ <;> rw [hparses.outcomeIn_eq_ok_iff]
    · exact hw
    · obtain ⟨w', hw', hcopy⟩ := hprojected e (hsource e he)
      rw [hw', hcopy.eq]
  refine ⟨fun a ha => ⟨fun h => ?exact, fun h => ?same, ?empty⟩, fun passes h text origin => ?count⟩
  case exact =>
    obtain ⟨w, -, hw⟩ := hexact a ha h
    exact ⟨w, hw⟩
  case same =>
    obtain ⟨w, hw, hprojected⟩ := Expr.exists_outcomes_of_numbers hv hdot houtcome hitems hbody
      Number.respects_same ha h
    refine ⟨w, fun text origin hparses => ?_, fun e he text origin hparses => ?_⟩
    · rw [hparses.outcomeIn_eq_ok_iff]
      exact hw
    · obtain ⟨w', hw', hcopy⟩ := hprojected e (hsource e he)
      exact ⟨w', hparses.outcomeIn_eq_ok_iff.2 hw', hcopy⟩
  case empty =>
    -- of no items, every number is read back
    rintro rfl
    obtain ⟨w, hw, htexts⟩ := hexact a ha fun x hx => absurd hx List.not_mem_nil
    rw [Expr.outcome_aggregateBy_nil hv houtcome hitems hbody ha] at hw
    obtain rfl := Except.ok.inj hw
    exact htexts
  case count =>
    rintro (hparses | ⟨e, he, hparses | ⟨x, hqualifier, hconstant, hparses⟩⟩) <;>
      rw [hparses.outcomeIn_eq_ok_iff]
    · exact Expr.outcome_count_lambda hv houtcome hitems hbody h
    · exact Expr.outcome_count_filtered hv (hsource e he) hitems hbody h hdot
    · exact Expr.outcome_count_projected hv (hsource e he) hitems hbody h hdot hqualifier hconstant

end Texts

/-- A document with two numbers. -/
def twoNumbers : Context :=
  .ofValue (.object [("A", .array [.number (.integer 1), .number (.integer 3)])])

theorem aggregates_of_projections_two :
    (∃ w, ∀ text ∈ ["Sum(A, x => x * 0.5)", "Sum(A.Select(x => x * 0.5))",
        "Sum((A).Select(x => x * 0.5))"],
      outcomeIn ⟨.standard, []⟩ twoNumbers text .start = .ok w) ∧
    ∀ text ∈ ["Count(A, x => x > 2)", "Count(A.Where(x => x > 2))",
        "Count(A.Select(x => x > 2), b => b)"],
      outcomeIn ⟨.standard, []⟩ twoNumbers text .start = .ok (.number (Number.ofInt 1)) := by
  let dot : Operator := ⟨".", .binary, 100⟩
  let x := Expr.name "x" .start
  let half := Expr.binary ⟨"*", .binary, 70⟩ x (.number "0.5" .start) .start
  let great := Expr.binary ⟨">", .binary, 50⟩ x (.number "2" .start) .start
  constructor
  · obtain ⟨hnumbers, -⟩ := @aggregates_of_projections ⟨.standard, []⟩ twoNumbers dot
      (.forEach "x" half) _ _ _ Vocabulary.standard.extends_self rfl (.name "A" .start) "A" .start
      (Language.parses_of_gathered rfl) rfl (fun _ _ => rfl) rfl
    obtain ⟨hexact, -⟩ := hnumbers .sum (by decide)
    obtain ⟨w, hw⟩ := hexact fun item hitem => by
      rcases List.mem_pair.1 hitem with rfl | rfl
      · exact ⟨.number 0.5, 0.5, 0.5, rfl, rfl, by decide +kernel, rfl⟩
      · exact ⟨.number 1.5, 1.5, 1.5, rfl, rfl, by decide +kernel, rfl⟩
    refine ⟨w, fun text htext => hw text .start ?_⟩
    simp only [List.mem_cons, List.not_mem_nil, or_false] at htext
    rcases htext with rfl | rfl | rfl
    · exact .inl (Language.parses_of_gathered rfl)
    · exact .inr ⟨_, List.mem_pair.2 (.inl rfl), Language.parses_of_gathered rfl⟩
    · exact .inr ⟨_, List.mem_pair.2 (.inr rfl), Language.parses_of_gathered rfl⟩
  · obtain ⟨-, hcounts⟩ := @aggregates_of_projections ⟨.standard, []⟩ twoNumbers dot
      (.forEach "x" great) _ _ _ Vocabulary.standard.extends_self rfl (.name "A" .start) "A" .start
      (Language.parses_of_gathered rfl) rfl (fun _ _ => rfl) rfl
    -- only the second number passes
    have hcount := hcounts (fun item => item.2 == 1) fun item hitem => by
      rcases List.mem_pair.1 hitem with rfl | rfl
      · exact ⟨.boolean false, rfl, rfl⟩
      · exact ⟨.boolean true, rfl, rfl⟩
    intro text htext
    refine hcount text .start ?_
    simp only [List.mem_cons, List.not_mem_nil, or_false] at htext
    rcases htext with rfl | rfl | rfl
    · exact .inl (Language.parses_of_gathered rfl)
    · exact .inr ⟨_, List.mem_pair.2 (.inl rfl), .inl (Language.parses_of_gathered rfl)⟩
    · exact .inr ⟨_, List.mem_pair.2 (.inl rfl), .inr ⟨"b", rfl, rfl,
        Language.parses_of_gathered rfl⟩⟩

end DocQuery
