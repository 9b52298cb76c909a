/-
Predicates over the items of a collection.

* `Decides`, `chosen` — a test that has an outcome for every item, and the items that pass it;
* `filterItems_eq_ok_iff`, `outcome_findItem`, `outcome_collect_count` — what the loops of selectors
  and aggregates make of a test that decides;
* `runWith_any`, `runWith_all` — the loops that stop early, as searches for one item;
* `selectors_and_aggregates_agree` — one predicate has one meaning for all of them.

Design notes: a filter tests every item, so its success says that the test decides, and from then on
no other loop can fail. Without that, the two aggregates that stop early are compared item by item:
both stop at the same item, be it for its outcome or for its fault, so they even come across the
same places.
-/
import DocQuery.Proofs.Formula.Wording

namespace DocQuery

/-! ### Tests that decide -/

/-- Whether an item passes a test. It does not if the test fails. -/
def Traced.passes (x : Traced Bool) : Bool := x.outcome.toOption.getD false

theorem Traced.passes_eq {x : Traced Bool} {b : Bool} (h : x.outcome = .ok b) : x.passes = b := by
  rw [passes, h]
  rfl

section Tests

variable {test : Node × Nat → Traced Bool} {items : List (Node × Nat)}

/-- Whether a test has an outcome for each item. -/
def Decides (test : Node × Nat → Traced Bool) (items : List (Node × Nat)) : Prop :=
  ∀ x ∈ items, (test x).outcome = .ok (test x).passes

/-- The items that pass a test. -/
def chosen (test : Node × Nat → Traced Bool) (items : List (Node × Nat)) : List Node :=
  (items.filter fun x => (test x).passes).map Prod.fst

theorem decides_cons {x : Node × Nat} :
    Decides test (x :: items) ↔ (test x).outcome = .ok (test x).passes ∧ Decides test items :=
  List.forall_mem_cons

theorem chosen_cons (x : Node × Nat) :
    chosen test (x :: items) =
      if (test x).passes then x.1 :: chosen test items else chosen test items := by
  rw [chosen, List.filter_cons]
  split <;> rfl

/-- A filter succeeds exactly if the test decides, and then keeps what passes. -/
theorem filterItems_eq_ok_iff {kept : List Node} :
    (filterItems test items).outcome = .ok kept ↔
      Decides test items ∧ kept = chosen test items := by
  induction items generalizing kept with
  | nil =>
    rw [filterItems, chosen, List.filter_nil, List.map_nil]
    constructor
    · intro h
      exact ⟨fun x hx => absurd hx List.not_mem_nil, (Except.ok.inj h).symm⟩
    · rintro ⟨-, rfl⟩
      rfl
  | cons x items ih =>
    rw [filterItems, Traced.outcome_bind, Except.bind_eq_ok_iff, decides_cons, chosen_cons]
    constructor
    · rintro ⟨b, hb, h⟩
      rw [Traced.outcome_bind, Except.bind_eq_ok_iff] at h
      obtain ⟨rest, hrest, h⟩ := h
      obtain ⟨hdecides, rfl⟩ := ih.1 hrest
      rw [Traced.passes_eq hb]
      exact ⟨⟨hb, hdecides⟩, (Except.ok.inj h).symm⟩
    · rintro ⟨⟨hx, hdecides⟩, rfl⟩
      refine ⟨_, hx, ?_⟩
      rw [Traced.outcome_bind, ih.2 ⟨hdecides, rfl⟩]
      rfl

/-- A search finds the first of the items that pass. -/
theorem outcome_findItem (h : Decides test items) :
    (findItem test items).outcome = .ok (chosen test items).head? := by
  induction items with
  | nil => rfl
  | cons x items ih =>
    obtain ⟨hx, hdecides⟩ := decides_cons.1 h
    rw [findItem, Traced.outcome_bind, hx, Except.ok_bind, chosen_cons]
    cases (test x).passes with
    | true => rfl
    | false => exact ih hdecides

theorem Decides.reverse (h : Decides test items) : Decides test items.reverse :=
  fun x hx => h x (List.mem_reverse.1 hx)

theorem chosen_reverse : chosen test items.reverse = (chosen test items).reverse := by
  rw [chosen, chosen, List.filter_reverse, List.map_reverse]

theorem isEmpty_chosen : (chosen test items).isEmpty = !items.any fun x => (test x).passes := by
  rw [chosen, List.isEmpty_map, Bool.eq_iff_iff]
  simp

/-- All the items are chosen exactly if each of them passes. -/
theorem chosen_eq_iff :
    chosen test items = items.map Prod.fst ↔ items.all fun x => (test x).passes := by
  rw [chosen, List.all_eq_true, ← List.filter_eq_self]
  constructor
  · intro h
    have hlength := congrArg List.length h
    rw [List.length_map, List.length_map] at hlength
    exact List.filter_sublist.eq_of_length hlength
  · intro h
    rw [h]

/-! ### Searches for one item -/

theorem outcome_anyM (h : Decides test items) :
    (items.anyM test).outcome = .ok (items.any fun x => (test x).passes) := by
  induction items with
  | nil => rfl
  | cons x items ih =>
    obtain ⟨hx, hdecides⟩ := decides_cons.1 h
    rw [List.anyM_cons, Traced.outcome_bind, hx, Except.ok_bind, List.any_cons]
    cases (test x).passes with
    | true => rfl
    | false => exact ih hdecides

theorem outcome_allM (h : Decides test items) :
    (items.allM test).outcome = .ok (items.all fun x => (test x).passes) := by
  induction items with
  | nil => rfl
  | cons x items ih =>
    obtain ⟨hx, hdecides⟩ := decides_cons.1 h
    rw [List.allM_cons, Traced.outcome_bind, hx, Except.ok_bind, List.all_cons]
    cases (test x).passes with
    | true => exact ih hdecides
    | false => rfl

end Tests

/-! ### Aggregates of a predicate -/

section Aggregates

variable {valueOf : Node × Nat → Traced Operand}

theorem outcome_collect_count {items : List (Node × Nat)} (h : Decides (testOf valueOf) items)
    (n : Nat) :
    ((Tally.count n).collect valueOf items).outcome =
      .ok (.count (n + (chosen (testOf valueOf) items).length)) := by
  induction items generalizing n with
  | nil => rfl
  | cons x items ih =>
    obtain ⟨hx, hdecides⟩ := decides_cons.1 h
    rw [testOf, Traced.outcome_bind, Except.bind_eq_ok_iff] at hx
    obtain ⟨a, ha, hb⟩ := hx
    have hboolean : a.boolean = .ok (testOf valueOf x).passes := hb
    rw [Tally.collect, Traced.outcome_bind, ha, Except.ok_bind, Tally.add, hboolean, chosen_cons]
    cases (testOf valueOf x).passes with
    | true =>
      refine (ih hdecides (n + 1)).trans ?_
      rw [if_pos rfl, List.length_cons, Nat.add_assoc, Nat.add_comm 1]
    | false => exact ih hdecides n

/-- Whether any item passes is a search for one that does. -/
theorem collect_any (items : List (Node × Nat)) :
    (Tally.any false).collect valueOf items = Tally.any <$> items.anyM (testOf valueOf) := by
  induction items with
  | nil => rfl
  | cons x items ih =>
    rw [Tally.collect, List.anyM_cons, testOf]
    simp only [map_eq_pure_bind, bind_assoc] at ih ⊢
    refine bind_congr fun a => ?_
    rw [Tally.add]
    rcases a.boolean with fault | b
    · rfl
    · cases b with
      | true => rfl
      | false => exact congrArg (Traced.ofExcept (.ok false) >>= fun _ => ·) ih

/-- Whether all items pass is a search for one that does not. -/
theorem collect_all (items : List (Node × Nat)) :
    (Tally.all true).collect valueOf items = Tally.all <$> items.allM (testOf valueOf) := by
  induction items with
  | nil => rfl
  | cons x items ih =>
    rw [Tally.collect, List.allM_cons, testOf]
    simp only [map_eq_pure_bind, bind_assoc] at ih ⊢
    refine bind_congr fun a => ?_
    rw [Tally.add]
    rcases a.boolean with fault | b
    · rfl
    · cases b with
      | true => exact congrArg (Traced.ofExcept (.ok true) >>= fun _ => ·) ih
      | false => rfl

theorem runWith_any (items : List Node) :
    Aggregate.any.runWith valueOf items =
      Value.boolean <$> items.zipIdx.anyM (testOf valueOf) := by
  rw [Aggregate.runWith, Aggregate.start, collect_any]
  simp only [map_eq_pure_bind, bind_assoc, pure_bind, Tally.result]

theorem runWith_all (items : List Node) :
    Aggregate.all.runWith valueOf items =
      Value.boolean <$> items.zipIdx.allM (testOf valueOf) := by
  rw [Aggregate.runWith, Aggregate.start, collect_all]
  simp only [map_eq_pure_bind, bind_assoc, pure_bind, Tally.result]

/-! What each loop comes to when the predicate decides. -/

variable {items : List Node}

theorem outcome_select_filter_iff {kept : List Node} :
    (LambdaSelector.filter.select valueOf items).outcome = .ok (.many kept) ↔
      Decides (testOf valueOf) items.zipIdx ∧ kept = chosen (testOf valueOf) items.zipIdx := by
  rw [← filterItems_eq_ok_iff, LambdaSelector.select, Traced.outcome_bind]
  rcases (filterItems (testOf valueOf) items.zipIdx).outcome with fault | found
  · simp [Except.error_bind]
  · rw [Except.ok_bind, Except.ok.injEq]
    show (Except.ok (View.many found) = _) ↔ _
    rw [Except.ok.injEq, View.many.injEq]

variable (h : Decides (testOf valueOf) items.zipIdx)

include h

theorem outcome_select_first :
    (LambdaSelector.first.select valueOf items).outcome =
      .ok (.single (chosen (testOf valueOf) items.zipIdx).head?) := by
  rw [LambdaSelector.select, Traced.outcome_bind, outcome_findItem h]
  rfl

theorem outcome_select_last :
    (LambdaSelector.last.select valueOf items).outcome =
      .ok (.single (chosen (testOf valueOf) items.zipIdx).getLast?) := by
  rw [LambdaSelector.select, Traced.outcome_bind, outcome_findItem h.reverse, chosen_reverse,
    List.head?_reverse]
  rfl

theorem outcome_runWith_count :
    (Aggregate.count.runWith valueOf items).outcome =
      .ok (.number (Number.ofInt (chosen (testOf valueOf) items.zipIdx).length)) := by
  rw [Aggregate.runWith, Aggregate.start, Traced.outcome_bind, outcome_collect_count h,
    Nat.zero_add]
  rfl

theorem outcome_runWith_any :
    (Aggregate.any.runWith valueOf items).outcome =
      .ok (.boolean (!(chosen (testOf valueOf) items.zipIdx).isEmpty)) := by
  rw [runWith_any, map_eq_pure_bind, Traced.outcome_bind, outcome_anyM h, isEmpty_chosen,
    Bool.not_not]
  rfl

theorem outcome_runWith_all :
    (Aggregate.all.runWith valueOf items).outcome =
      .ok (.boolean (items.zipIdx.all fun x => (testOf valueOf x).passes)) := by
  rw [runWith_all, map_eq_pure_bind, Traced.outcome_bind, outcome_allM h]
  rfl

end Aggregates

/-! ### Refutation of a predicate -/

/-- Whether a value has items that can be gone through. -/
def Value.IsIterable (v : Value) : Prop :=
  ∃ items, ∀ function position, v.items function position = .ok items

/-- What comes after an evaluation only matters on its result. -/
theorem Traced.bind_congr_ok {α β : Type} {x : Traced α} {f g : α → Traced β}
    (h : ∀ a, x.outcome = .ok a → f a = g a) : x >>= f = x >>= g := by
  rcases hx : x.outcome with fault | a
  · rw [bind_error hx, bind_error hx]
  · rw [bind_ok hx, bind_ok hx, h a hx]

/-- The negation of a condition passes where the condition does not. -/
theorem testOf_not (c : Context) (lambda : Nat) (body : Formula) (p : Position) :
    testOf ((Formula.apply .not body p).interpretFor c lambda) =
      fun item => (! ·) <$> testOf (body.interpretFor c lambda) item := by
  funext item
  simp only [testOf, Formula.interpretFor, Formula.sense, Sense.operand, evaluate,
    map_eq_pure_bind, bind_assoc, pure_bind]
  refine bind_congr fun v => ?_
  rw [UnaryFunction.run]
  rcases Operand.boolean _ with fault | b <;> rfl

/-- Some item passes exactly if not all items fail, or the same fault shows. -/
theorem evaluate_any_eq {c : Context} {collection : Formula}
    (hitems : ∀ v, (evaluate c collection).outcome = .ok v → v.IsIterable) (lambda : Nat)
    (body : Formula) (p p₁ p₂ p₃ : Position) :
    evaluate c (.aggregateBy .any collection lambda body p) =
      evaluate c (.apply .not
        (.aggregateBy .all collection lambda (.apply .not body p₁) p₂) p₃) := by
  rw [evaluate_aggregateBy, evaluate, evaluate_aggregateBy]
  simp only [Aggregate.interpret, Formula.sense, bind_assoc]
  refine Traced.bind_congr_ok fun v hv => ?_
  obtain ⟨items, hall⟩ := hitems v hv
  rw [hall, hall]
  show Aggregate.any.runWith _ items = Aggregate.all.runWith _ items >>= _
  rw [runWith_any, runWith_all, testOf_not, List.allM_eq_not_anyM_not]
  simp only [map_eq_pure_bind, bind_assoc, pure_bind, Bool.not_not, bind_pure]
  refine bind_congr fun b => ?_
  cases b <;> rfl

namespace Expr

/-- Whether a predicate holds for an item of a collection. -/
def someOf (collection : Expr) (x : String) (predicate : Expr) : Expr :=
  .call "Any" [collection, .forEach x predicate] .start

/-- Whether it is not so that the negation of a predicate holds for all items of a collection. -/
def notNoneOf (no : Operator) (collection : Expr) (x : String) (predicate : Expr) : Expr :=
  .before no (.call "All" [collection, .forEach x (.before no (.group predicate .start) .start)]
    .start) .start

/-- Both forms have the same formula inside, and so the same value. -/
theorem outcome_notNoneOf {s : Naming} (hv : s.vocabulary.Extends .standard) {no : Operator}
    (hno : no.name = "!") {c : Context} {collection : Expr}
    (hitems : ∀ v, collection.outcome s c = .ok v → v.IsIterable) (x : String) (predicate : Expr) :
    (notNoneOf no collection x predicate).outcome s c =
      (someOf collection x predicate).outcome s c := by
  have hany := hv.functions "Any" _ rfl
  have hall := hv.functions "All" _ rfl
  have hpath : no.name ≠ pathOperator := by rw [hno]; decide
  have hbefore (s' : Naming) (hs : s'.vocabulary = s.vocabulary) :
      s'.vocabulary.before.lookup no.name = some (.apply .not) := by
    rw [hs, hno]
    exact hv.before "!" _ rfl
  rw [outcome, outcome, notNoneOf, someOf, compile_before s hpath (hbefore s rfl),
    compile_aggregateBy s hany, compile_aggregateBy s hall, compileLambda_forEach,
    compileLambda_forEach,
    compile_before (s.enter [x]) hpath (hbefore (s.enter [x]) rfl) (.group predicate .start) .start,
    compile_group]
  rcases hf : compile s collection with fault | f
  · rfl
  rcases compile (s.enter [x]) predicate with fault | body
  · rfl
  refine congrArg Traced.outcome (evaluate_any_eq (fun v hvalue => hitems v ?_) ..).symm
  rw [outcome, hf]
  exact hvalue

end Expr

/-! ### All loops over one predicate -/

section Agreement

variable {c : Context} {isTracked : Bool} {view : View} {items kept : List Node} {lambda : Nat}
  {body : Formula} {p : Position}

theorem outcome_aggregateBy {collection : Formula} {v : Value} (a : Aggregate)
    (hv : (evaluate c collection).outcome = .ok v)
    (hitems : ∀ function q, v.items function q = .ok items) :
    (evaluate c (.aggregateBy a collection lambda body p)).outcome =
      (a.runWith (body.interpretFor c lambda) items).outcome := by
  rw [evaluate_aggregateBy, Aggregate.interpret, Traced.outcome_bind, Formula.sense, hv,
    Except.ok_bind, hitems]
  rfl

/-- What a filter keeps decides what every other loop over the predicate comes to, and a search that
stops early refutes what it would refute of the negation. -/
theorem selectors_and_aggregates_agree {s : Naming} (hv : s.vocabulary.Extends .standard)
    (c : Context) :
    (∀ (view : View) (collection : Formula) (items : List Node),
      (evaluate c collection).outcome = .ok view.toValue →
      (∀ function q, view.toValue.items function q = .ok items) →
      ∀ (isTracked : Bool) (lambda : Nat) (body : Formula) (p : Position) (kept : List Node),
        let select selector :=
          (evaluateStep c isTracked view (.through selector lambda body p)).outcome
        let aggregate a := (evaluate c (.aggregateBy a collection lambda body p)).outcome
        select .filter = .ok (.many kept) →
          (∃ passes : Node × Nat → Bool,
            (∀ x ∈ items.zipIdx,
              (testOf (body.interpretFor c lambda) x).outcome = .ok (passes x)) ∧
            kept = (items.zipIdx.filter passes).map Prod.fst) ∧
          select .first = .ok (.single kept.head?) ∧
          select .last = .ok (.single kept.getLast?) ∧
          aggregate .count = .ok (.number (Number.ofInt kept.length)) ∧
          (evaluate c (.aggregate .count (.constant (.nodes kept) p) p)).outcome =
            .ok (.number (Number.ofInt kept.length)) ∧
          aggregate .any = .ok (.boolean (!kept.isEmpty)) ∧
          ∃ holds, aggregate .all = .ok (.boolean holds) ∧ (holds = true ↔ kept = items)) ∧
    ∀ (no : Operator) (collection : Expr) (x : String) (predicate : Expr), no.name = "!" →
      (∀ v, collection.outcome s c = .ok v → v.IsIterable) →
      ∀ text origin text' origin',
        s.dialect.language.Parses text origin (collection.someOf x predicate) →
        s.dialect.language.Parses text' origin' (collection.notNoneOf no x predicate) →
          told (outcomeIn s c text origin) = told (outcomeIn s c text' origin') := by
  constructor
  · intro view collection items hvalue hitems isTracked lambda body p kept select aggregate hkept
    have hselect : ∀ selector, select selector =
        (selector.select (body.interpretFor c lambda) items).outcome := by
      intro selector
      rw [show select selector = _ from outcome_through .., hitems]
      rfl
    have haggregate : ∀ a, aggregate a = (a.runWith (body.interpretFor c lambda) items).outcome :=
      fun a => outcome_aggregateBy a hvalue hitems
    obtain ⟨hdecides, rfl⟩ := outcome_select_filter_iff.1 ((hselect .filter).symm.trans hkept)
    simp only [hselect, haggregate]
    refine ⟨⟨_, hdecides, rfl⟩, outcome_select_first hdecides, outcome_select_last hdecides,
      outcome_runWith_count hdecides, rfl, outcome_runWith_any hdecides, _,
      outcome_runWith_all hdecides, ?_⟩
    rw [← chosen_eq_iff, List.zipIdx_map_fst]
  · intro no collection x predicate hno hitems text origin text' origin' htext htext'
    rw [htext.told_outcomeIn, htext'.told_outcomeIn,
      Expr.outcome_notNoneOf hv hno hitems x predicate]

/-- One of two flags is set, and what stands behind it is no flag. -/
theorem selectors_and_aggregates_agree_flags :
    let flag b := Node.ofJson (.root "D") (.object [("B", .boolean b)])
    let body := Formula.lookup (.parameter 0 "x" .item) [.member "B"] .start
    let c := Context.ofValue (.object [("A", .array [.object [("B", .boolean false)],
      .object [("B", .boolean true)], .object [("B", .text "no flag")]])])
    (evaluateStep c true (.many [flag false, flag true])
        (.through .first 0 body .start)).outcome = .ok (.single (some (flag true))) ∧
      (evaluate c (.aggregateBy .all (.constant (.nodes [flag false, flag true]) .start) 0 body
        .start)).outcome = .ok (.boolean false) ∧
      told (outcomeIn ⟨.standard, []⟩ c "!All(A, x => !(x.B))" .start) = .ok (.boolean true) := by
  intro flag body c
  obtain ⟨hloops, hforms⟩ := selectors_and_aggregates_agree
    (s := ⟨.standard, []⟩) Vocabulary.standard.extends_self c
  obtain ⟨-, hfirst, -, -, -, -, holds, hall, hwhole⟩ :=
    hloops (.many [flag false, flag true]) (.constant (.nodes [flag false, flag true]) .start)
      [flag false, flag true] rfl (fun _ _ => rfl) true 0 body .start [flag true] rfl
  have hholds : holds = false := by
    rw [Bool.eq_false_iff, ne_eq, hwhole]
    simp
  let flagged := Expr.binary ⟨".", .binary, 100⟩ (.name "x" .start) (.name "B" .start) .start
  have hsome : Language.standard.Parses "Any(A, x => x.B)" .start
      ((Expr.name "A" .start).someOf "x" flagged) :=
    Language.parses_of_gathered rfl
  have hnone : Language.standard.Parses "!All(A, x => !(x.B))" .start
      ((Expr.name "A" .start).notNoneOf ⟨"!", .before, 80⟩ "x" flagged) :=
    Language.parses_of_gathered rfl
  have hitems : ∀ v, (Expr.name "A" .start).outcome ⟨.standard, []⟩ c = .ok v →
      v.IsIterable := by
    rintro v hv
    obtain rfl := Except.ok.inj hv
    exact ⟨_, fun _ _ => rfl⟩
  exact ⟨hfirst, hholds ▸ hall, (hforms _ _ _ _ rfl hitems _ _ _ _ hsome hnone).symm⟩

end Agreement

end DocQuery
