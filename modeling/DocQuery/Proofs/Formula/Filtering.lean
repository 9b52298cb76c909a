/-
Filters one after the other.

* `ignoresIndex_of_compile` — a lambda with one parameter has the same value at every
  index;
* `Filters` — what a filter without an index keeps of a list of items;
* `Filters.trans_iff` — filters for two conditions keep what one filter for both keeps;
* `outcome_projectItems` — a projection is put together from what each item contributes;
* `filters_compose` — the same for the texts of lookups.

Design notes: the second of two filters finds its items at other indexes than the first one has seen
them at, so nothing here holds of a lambda that looks at its index. Which of the two conditions
fails first is not the same in both forms, but whether one of them fails is.
-/
import DocQuery.Proofs.Formula.Predicates

namespace DocQuery

/-! ### Lambdas without an index -/

theorem Environment.enter_index (ρ : Environment) (x : String) (n : Node) (i j : Nat) :
    ρ.enter [x] (n, i) = ρ.enter [x] (n, j) := by
  funext name
  rw [enter, enter, List.idxOf?_cons]
  cases x == name <;> rfl

/-- Whether a lambda does not look at the index of its items. -/
def Formula.IgnoresIndex (c : Context) (lambda : Nat) (body : Formula) : Prop :=
  ∀ n i j, body.interpretFor c lambda (n, i) = body.interpretFor c lambda (n, j)

/-- A lambda with one parameter has the same value at every index. -/
theorem ignoresIndex_of_compile {s : Naming} {c : Context} (hc : c.Covers s.lambdas) {x : String}
    {e : Expr} {body : Formula} (hbody : compile (s.enter [x]) e = .ok body) :
    body.IgnoresIndex c s.lambdas.length := by
  intro n i j
  have hlambda : compileLambda s "" (.forEach x e) = .ok body := by
    rw [compileLambda_forEach]
    exact hbody
  rw [(compilesLambda_of_compileLambda hlambda).interpretFor_eq hc, Expr.forEach]
  simp only [Expr.interpretFor, List.map_cons, List.map_nil]
  rw [Environment.enter_index _ x n i j]

/-! ### Filters of a list -/

/-- Whether an item passes a condition. It does not if the condition fails. -/
def holdsFor (condition : Node → Except Fault Bool) (n : Node) : Bool :=
  (condition n).toOption.getD false

/-- Whether the items of a list for which a condition holds are `kept`, and the condition has an
outcome for each of them. -/
def Filters (condition : Node → Except Fault Bool) (items kept : List Node) : Prop :=
  (∀ n ∈ items, condition n = .ok (holdsFor condition n)) ∧ kept = items.filter (holdsFor condition)

/-- Two conditions, the second of which only counts if the first one holds. -/
def bothOf (condition next : Node → Except Fault Bool) (n : Node) : Except Fault Bool := do
  if ← condition n then next n else .ok false

section Filters

variable {condition next : Node → Except Fault Bool} {items kept : List Node}

theorem holdsFor_eq {n : Node} {holds : Bool} (h : condition n = .ok holds) :
    holdsFor condition n = holds := by
  rw [holdsFor, h]
  rfl

theorem bothOf_eq {n : Node} {holds : Bool} (h : condition n = .ok holds) :
    bothOf condition next n = if holds then next n else .ok false := by
  rw [bothOf, h, Except.ok_bind]

/-- The conditions have an outcome for an item exactly if the first one has, and the second one has
where the first one holds. -/
theorem bothOf_settles_iff {n : Node} :
    bothOf condition next n = .ok (holdsFor (bothOf condition next) n) ↔
      condition n = .ok (holdsFor condition n) ∧
        (holdsFor condition n → next n = .ok (holdsFor next n)) := by
  rcases h : condition n with fault | holds
  · simp [bothOf, h, Except.error_bind]
  · rw [holdsFor_eq h]
    cases holds with
    | false => simp [holdsFor, bothOf_eq h, Except.toOption]
    | true => simp [holdsFor, bothOf_eq h]

theorem holdsFor_bothOf {n : Node} (h : condition n = .ok (holdsFor condition n)) :
    holdsFor (bothOf condition next) n = (holdsFor next n && holdsFor condition n) := by
  rw [holdsFor, bothOf_eq h]
  cases holdsFor condition n with
  | false => exact (Bool.and_false _).symm
  | true => exact (Bool.and_true _).symm

/-- Filters for two conditions keep what one filter for both keeps. The second condition matters
only where the first one holds. -/
theorem Filters.trans_iff :
    (∃ between, Filters condition items between ∧ Filters next between kept) ↔
      Filters (bothOf condition next) items kept := by
  constructor
  · rintro ⟨_, ⟨hfirst, rfl⟩, hnext, rfl⟩
    refine ⟨fun n hn => bothOf_settles_iff.2 ⟨hfirst n hn, fun hholds => ?_⟩, ?_⟩
    · exact hnext n (List.mem_filter.2 ⟨hn, hholds⟩)
    · rw [List.filter_filter]
      exact List.filter_congr fun n hn => (holdsFor_bothOf (hfirst n hn)).symm
  · rintro ⟨hboth, rfl⟩
    have hfirst := fun n hn => (bothOf_settles_iff.1 (hboth n hn)).1
    refine ⟨_, ⟨hfirst, rfl⟩, fun n hn => ?_, ?_⟩
    · obtain ⟨hitem, hholds⟩ := List.mem_filter.1 hn
      exact (bothOf_settles_iff.1 (hboth n hitem)).2 hholds
    · rw [List.filter_filter]
      exact List.filter_congr fun n hn => holdsFor_bothOf (hfirst n hn)

end Filters

section Loops

variable {c : Context} {lambda : Nat} {body : Formula} {items : List Node}

/-- What a lambda comes to as a condition of an item, at any index. -/
def Formula.conditionFor (c : Context) (lambda : Nat) (body : Formula) (n : Node) :
    Except Fault Bool :=
  (testOf (body.interpretFor c lambda) (n, 0)).outcome

theorem outcome_testOf (h : body.IgnoresIndex c lambda) (x : Node × Nat) :
    (testOf (body.interpretFor c lambda) x).outcome = body.conditionFor c lambda x.1 := by
  obtain ⟨n, i⟩ := x
  rw [Formula.conditionFor, testOf, testOf, h n i 0]

theorem passes_testOf (h : body.IgnoresIndex c lambda) (x : Node × Nat) :
    (testOf (body.interpretFor c lambda) x).passes =
      holdsFor (body.conditionFor c lambda) x.1 := by
  rw [Traced.passes, outcome_testOf h, holdsFor]

theorem forall_mem_zipIdx {P : Node → Prop} (k : Nat) :
    (∀ x ∈ items.zipIdx k, P x.1) ↔ ∀ n ∈ items, P n := by
  rw [← List.forall_mem_map (f := Prod.fst), List.zipIdx_map_fst]

theorem filter_zipIdx (p : Node → Bool) :
    (items.zipIdx.filter fun x => p x.1).map Prod.fst = items.filter p := by
  have hmap := List.filter_map (f := Prod.fst) (p := p) (l := items.zipIdx)
  rw [List.zipIdx_map_fst] at hmap
  exact hmap.symm

theorem mapM_zipIdx (f : Node → Except Fault (List Node)) :
    (items.zipIdx.mapM fun x => f x.1) = items.mapM f := by
  have hmap := List.mapM_map (f := Prod.fst) (g := f) (l := items.zipIdx)
  rw [List.zipIdx_map_fst] at hmap
  exact hmap.symm

/-- A filter keeps the items for which its condition holds, wherever they stand. -/
theorem outcome_filter_iff (h : body.IgnoresIndex c lambda) {kept : List Node} :
    (LambdaSelector.filter.select (body.interpretFor c lambda) items).outcome = .ok (.many kept) ↔
      Filters (body.conditionFor c lambda) items kept := by
  rw [outcome_select_filter_iff, Decides, Filters, chosen]
  simp only [outcome_testOf h, passes_testOf h]
  refine and_congr (forall_mem_zipIdx (P := fun n => body.conditionFor c lambda n =
    .ok (holdsFor (body.conditionFor c lambda) n)) 0) ?_
  rw [filter_zipIdx]

/-- A projection is put together from what the items contribute, one after the other. -/
theorem outcome_projectItems (project : Node × Nat → Traced Value) (items : List (Node × Nat)) :
    (projectItems project items).outcome =
      (items.mapM fun x => (project x).outcome.map (·.contribution x.1.path)).map
        List.flatten := by
  induction items with
  | nil => rfl
  | cons x items ih =>
    rw [projectItems, List.mapM_cons, Traced.outcome_bind]
    rcases (project x).outcome with fault | v
    · rfl
    · simp only [Except.ok_bind, Traced.outcome_bind, ih, Except.map]
      rcases items.mapM _ with fault | parts <;> rfl

/-- What an item contributes to a projection through a lambda. -/
def Formula.contributionFor (c : Context) (lambda : Nat) (body : Formula) (n : Node) :
    Except Fault (List Node) :=
  (evaluate (c.bind lambda n 0) body).outcome.map (·.contribution n.path)

theorem outcome_project (h : body.IgnoresIndex c lambda) (items : List Node) :
    (LambdaSelector.project.select (body.interpretFor c lambda) items).outcome =
      (items.mapM (body.contributionFor c lambda)).map fun parts => .many parts.flatten := by
  have hitem : ∀ x : Node × Nat,
      ((do pure (← body.interpretFor c lambda x).value : Traced Value).outcome.map
        (·.contribution x.1.path)) = body.contributionFor c lambda x.1 := by
    rintro ⟨n, i⟩
    rw [h n i 0, Formula.contributionFor, Formula.interpretFor, Sense.operand, bind_assoc,
      Traced.outcome_bind]
    rcases hvalue : (evaluate (c.bind lambda n 0) body).outcome with fault | v
    · exact congrArg (Except.map _) (congrArg (· >>= _) hvalue)
    · exact congrArg (Except.map _) (congrArg (· >>= _) hvalue)
  rw [LambdaSelector.select, Traced.outcome_bind, outcome_projectItems]
  simp only [hitem]
  rw [mapM_zipIdx]
  rcases items.mapM (body.contributionFor c lambda) with fault | parts <;> rfl

end Loops

/-! ### Filters in a lookup -/

theorem outcome_testOf_interpretFor (c : Context) (lambda : Nat) (body : Formula)
    (x : Node × Nat) :
    (testOf (body.interpretFor c lambda) x).outcome =
      (evaluate (c.bind lambda x.1 x.2) body).outcome >>= fun v => v.toBoolean body.position := by
  rw [testOf, Formula.interpretFor, Sense.operand, bind_assoc, Traced.outcome_bind]
  rfl

theorem conditionFor_eq (c : Context) (lambda : Nat) (body : Formula) (n : Node) :
    body.conditionFor c lambda n =
      (evaluate (c.bind lambda n 0) body).outcome >>= fun v => v.toBoolean body.position :=
  outcome_testOf_interpretFor c lambda body (n, 0)

/-- The operator for two conditions makes one condition of them. -/
theorem conditionFor_both (c : Context) (lambda : Nat) (f g : Formula) (p : Position) :
    (Formula.both f g p).conditionFor c lambda =
      bothOf (f.conditionFor c lambda) (g.conditionFor c lambda) := by
  funext n
  rw [bothOf, conditionFor_eq, conditionFor_eq, conditionFor_eq, evaluate]
  simp only [Traced.outcome_bind, bind_assoc]
  refine bind_congr fun v => ?_
  rw [Traced.ofExcept]
  refine bind_congr fun holds => ?_
  cases holds with
  | false => rfl
  | true =>
    simp only [if_true, Traced.outcome_bind, bind_assoc]
    refine bind_congr fun w => ?_
    rw [Traced.ofExcept]
    rcases w.toBoolean g.position with fault | holds <;> rfl

section Lookups

variable {c : Context} {chain : Chain} {f g : Formula} {lambda : Nat} {v : Value}

/-- A lookup with a filter comes to the items that the filter keeps. -/
theorem outcome_extend_filter_iff (hf : f.IgnoresIndex c lambda) (p : Position) :
    (chain.extend [.through .filter lambda f p]).outcome c = .ok v ↔
      ∃ items kept, chain.foundItems c "Where" p = .ok items ∧
        Filters (f.conditionFor c lambda) items kept ∧ v = .nodes kept := by
  rw [Chain.outcome_extend_through, Except.bind_eq_ok_iff]
  refine exists_congr fun items => ?_
  rw [Except.map_eq_ok_iff]
  constructor
  · rintro ⟨hitems, view, hselect, rfl⟩
    have hmany := hselect
    rw [LambdaSelector.select, Traced.outcome_bind, Except.bind_eq_ok_iff] at hmany
    obtain ⟨kept, -, hkept⟩ := hmany
    obtain rfl := Except.ok.inj hkept
    exact ⟨kept, hitems, (outcome_filter_iff hf).1 hselect, rfl⟩
  · rintro ⟨kept, hitems, hfilters, rfl⟩
    exact ⟨hitems, _, (outcome_filter_iff hf).2 hfilters, rfl⟩

/-- What a filter keeps is what a second filter finds. -/
theorem foundItems_extend_filter_iff (hf : f.IgnoresIndex c lambda) (p : Position)
    {between : List Node} (function : String) (q : Position) :
    (chain.extend [.through .filter lambda f p]).foundItems c function q = .ok between ↔
      ∃ items, chain.foundItems c "Where" p = .ok items ∧
        Filters (f.conditionFor c lambda) items between := by
  rw [Chain.foundItems, Except.bind_eq_ok_iff]
  constructor
  · rintro ⟨w, hw, hbetween⟩
    obtain ⟨items, kept, hitems, hfilters, rfl⟩ := (outcome_extend_filter_iff hf p).1 hw
    obtain rfl := Except.ok.inj hbetween
    exact ⟨items, hitems, hfilters⟩
  · rintro ⟨items, hitems, hfilters⟩
    exact ⟨_, (outcome_extend_filter_iff hf p).2 ⟨items, between, hitems, hfilters, rfl⟩, rfl⟩

/-- A lookup with two filters comes to the same as one with a filter for both conditions. -/
theorem outcome_extend_filters_iff (hf : f.IgnoresIndex c lambda) (hg : g.IgnoresIndex c lambda)
    {both : Formula} (hboth : both.IgnoresIndex c lambda)
    (hcondition : both.conditionFor c lambda =
      bothOf (f.conditionFor c lambda) (g.conditionFor c lambda)) (p q : Position) :
    ((chain.extend [.through .filter lambda f p]).extend [.through .filter lambda g q]).outcome c =
        .ok v ↔
      (chain.extend [.through .filter lambda both p]).outcome c = .ok v := by
  rw [outcome_extend_filter_iff hg, outcome_extend_filter_iff hboth, hcondition]
  simp only [foundItems_extend_filter_iff hf]
  constructor
  · rintro ⟨between, kept, ⟨items, hitems, hfirst⟩, hnext, rfl⟩
    exact ⟨items, kept, hitems, Filters.trans_iff.1 ⟨between, hfirst, hnext⟩, rfl⟩
  · rintro ⟨items, kept, hitems, hfilters, rfl⟩
    obtain ⟨between, hfirst, hnext⟩ := Filters.trans_iff.2 hfilters
    exact ⟨between, kept, ⟨items, hitems, hfirst⟩, hnext, rfl⟩

/-- A projection of what a filter keeps is put together from what its items contribute. -/
theorem outcome_extend_project {kept : List Node} (hg : g.IgnoresIndex c lambda)
    (hkept : chain.outcome c = .ok (.nodes kept)) (p : Position) :
    (chain.extend [.through .project lambda g p]).outcome c =
      (kept.mapM (g.contributionFor c lambda)).map fun parts => .nodes parts.flatten := by
  rw [Chain.outcome_extend_through, Chain.foundItems_of_nodes hkept, Except.ok_bind,
    outcome_project hg]
  rcases kept.mapM (g.contributionFor c lambda) with fault | parts <;> rfl

end Lookups

/-! ### Filters in a text -/

/-- Whether a value contributes `part` to a collection: nothing if it is undefined, its items if it
is an array or a collection, and otherwise one value, which stands at `path` if it is computed. -/
inductive Value.Contributes (path : Path) : Value → List Node → Prop
  | undefined : Contributes path .undefined []
  | array (p : Place) (items : List Node) : Contributes path (.node (.array p items)) items
  | collection (items : List Node) : Contributes path (.nodes items) items
  | single {n : Node} : n.items? = none → Contributes path (.node n) [n]
  | computed {v : Value} {n : Node} : v.isComputed → v.toNode? path = some n →
    Contributes path v [n]

theorem Value.contributes_iff {path : Path} {v : Value} {part : List Node} :
    v.Contributes path part ↔ part = v.contribution path := by
  constructor
  · rintro (_ | _ | _ | hsingle | ⟨hcomputed, hn⟩)
    · rfl
    · rfl
    · rfl
    · rw [contribution, Node.spread, hsingle]
      rfl
    · cases v with
      | undefined => cases hn
      | node | nodes => cases hcomputed
      | null | boolean | number | text | moment =>
        obtain rfl := Option.some.inj hn
        rfl
  · rintro rfl
    cases v with
    | undefined => exact .undefined
    | nodes items => exact .collection items
    | node n =>
      cases n with
      | array p items => exact .array p items
      | object | scalar => exact .single rfl
    | null | boolean | number | text | moment => exact .computed rfl rfl

section Trees

variable {s : Naming} {c : Context} {dot : Operator} {x : String}
  {collection first next body : Expr}

theorem outcome_filtered (hv : s.vocabulary.Extends .standard) (hdot : dot.name = pathOperator) :
    (collection.taking dot "Where" x first).outcome s c = (do
      let chain ← link s none collection
      let f ← compile (s.enter [x]) first
      (chain.extend [.through .filter s.lambdas.length f .start]).outcome c) := by
  rw [Expr.taking, Expr.selecting, Expr.outcome_path, ← Expr.selecting, ← Expr.taking,
    link_taking s hdot (hv.selectors "Where" _ rfl)]
  simp only [bind_assoc, Except.ok_bind]

theorem outcome_filtered_taking (hv : s.vocabulary.Extends .standard)
    (hdot : dot.name = pathOperator) {name : String} {selector : LambdaSelector}
    (hmeaning : s.vocabulary.selectors.lookup name = some (.lambda selector)) :
    ((collection.taking dot "Where" x first).taking dot name x next).outcome s c = (do
      let chain ← link s none collection
      let f ← compile (s.enter [x]) first
      let g ← compile (s.enter [x]) next
      ((chain.extend [.through .filter s.lambdas.length f .start]).extend
        [.through selector s.lambdas.length g .start]).outcome c) := by
  rw [Expr.taking, Expr.selecting, Expr.outcome_path, ← Expr.selecting, ← Expr.taking,
    link_taking s hdot hmeaning, link_taking s hdot (hv.selectors "Where" _ rfl)]
  simp only [bind_assoc, Except.ok_bind]

/-- Two filters come to what one filter for both conditions comes to. -/
theorem outcome_filtered_twice_iff (hv : s.vocabulary.Extends .standard)
    (hc : c.Covers s.lambdas) (hdot : dot.name = pathOperator) {both : Operator}
    (hboth : both.name = "&&") {v : Value} :
    ((collection.taking dot "Where" x first).taking dot "Where" x next).outcome s c = .ok v ↔
      (collection.taking dot "Where" x
        (.binary both (.group first .start) (.group next .start) .start)).outcome s c = .ok v := by
  have hpath : both.name ≠ pathOperator := by rw [hboth]; decide
  have hmeaning : (s.enter [x]).vocabulary.binary.lookup both.name = some .both := by
    rw [hboth]
    exact hv.binary "&&" _ rfl
  have hcompile := compile_binary (s.enter [x]) hpath hmeaning (.group first .start)
    (.group next .start) .start
  rw [compile_group, compile_group] at hcompile
  rw [outcome_filtered_taking hv hdot (hv.selectors "Where" _ rfl), outcome_filtered hv hdot,
    hcompile]
  rcases link s none collection with fault | chain
  · rfl
  rcases hf : compile (s.enter [x]) first with fault | f
  · rfl
  rcases hg : compile (s.enter [x]) next with fault | g
  · rfl
  rw [hf, hg] at hcompile
  exact outcome_extend_filters_iff (ignoresIndex_of_compile hc hf) (ignoresIndex_of_compile hc hg)
    (ignoresIndex_of_compile hc hcompile) (conditionFor_both c _ f g .start) .start .start

/-- A projection behind a filter is put together from what the items that are kept contribute. -/
theorem outcome_filtered_projected (hv : s.vocabulary.Extends .standard)
    (hc : c.Covers s.lambdas) (hdot : dot.name = pathOperator) {kept : List Node}
    (hkept : (collection.taking dot "Where" x first).outcome s c = .ok (.nodes kept)) :
    ((collection.taking dot "Where" x first).taking dot "Select" x body).outcome s c = (do
      let f ← compile (s.enter [x]) body
      let parts ← kept.mapM (f.contributionFor c s.lambdas.length)
      .ok (.nodes parts.flatten)) := by
  rw [outcome_filtered hv hdot, Except.bind_eq_ok_iff] at hkept
  obtain ⟨chain, hchain, hkept⟩ := hkept
  obtain ⟨f, hf, hkept⟩ := Except.bind_eq_ok_iff.1 hkept
  rw [outcome_filtered_taking hv hdot (hv.selectors "Select" _ rfl), hchain, hf]
  simp only [Except.ok_bind]
  rcases hg : compile (s.enter [x]) body with fault | g
  · rfl
  rw [Except.ok_bind, outcome_extend_project (ignoresIndex_of_compile hc hg) hkept]
  rfl

end Trees

/-- Three items with a flag. The second one has no other flag that could be tested. -/
def flaggedItems : Context :=
  .ofValue (.object [("A", .array [
    .object [("B", .boolean true), ("C", .boolean true), ("N", .array [.text "p", .text "q"])],
    .object [("B", .boolean false), ("C", .text "no flag")],
    .object [("B", .boolean true), ("C", .boolean false), ("N", .text "r")]])])

/-- Two filters keep what one filter for both conditions keeps, and a projection behind a filter is
put together from what the lambda contributes for each item that is kept, up to its first fault. -/
theorem filters_compose {s : Naming} (hv : s.vocabulary.Extends .standard) {c : Context}
    (hc : c.Covers s.lambdas) {dot both : Operator} (hdot : dot.name = pathOperator)
    (hboth : both.name = "&&") (x : String) (collection first next body : Expr) :
    let l := s.dialect.language
    let filtered := collection.taking dot "Where" x first
    (∀ text origin text' origin',
      l.Parses text origin (filtered.taking dot "Where" x next) →
      l.Parses text' origin' (collection.taking dot "Where" x
        (.binary both (.group first .start) (.group next .start) .start)) →
      ∀ v, (outcomeIn s c text origin = .ok v ↔ outcomeIn s c text' origin' = .ok v) ∧
        (outcomeIn s c text origin = .ok v → ∃ kept, v = .nodes kept)) ∧
    (∀ text origin text' origin' kept,
      l.Parses text origin filtered → l.Parses text' origin' (filtered.taking dot "Select" x body) →
      outcomeIn s c text origin = .ok (.nodes kept) →
        told (outcomeIn s c text' origin') = told (do
          let f ← compile (s.enter [x]) body
          let parts ← kept.mapM fun n =>
            (evaluate (c.bind s.lambdas.length n 0) f).outcome.map (·.contribution n.path)
          .ok (.nodes parts.flatten))) ∧
    ∀ (path : Path) (v : Value) (part : List Node),
      v.Contributes path part ↔ part = v.contribution path := by
  refine ⟨?filters, ?projection, fun path v part => Value.contributes_iff⟩
  case filters =>
    intro text origin text' origin' htext htext' v
    rw [htext.outcomeIn_eq_ok_iff, htext'.outcomeIn_eq_ok_iff]
    refine ⟨outcome_filtered_twice_iff hv hc hdot hboth, fun hvalue => ?_⟩
    rw [outcome_filtered_twice_iff hv hc hdot hboth, outcome_filtered hv hdot] at hvalue
    obtain ⟨chain, -, hvalue⟩ := Except.bind_eq_ok_iff.1 hvalue
    obtain ⟨f, hf, hvalue⟩ := Except.bind_eq_ok_iff.1 hvalue
    obtain ⟨-, kept, -, -, rfl⟩ :=
      (outcome_extend_filter_iff (ignoresIndex_of_compile hc hf) .start).1 hvalue
    exact ⟨kept, rfl⟩
  case projection =>
    intro text origin text' origin' kept htext htext' hkept
    rw [htext'.told_outcomeIn]
    exact congrArg told
      (outcome_filtered_projected hv hc hdot (htext.outcomeIn_eq_ok_iff.1 hkept))

theorem filters_compose_flags :
    (∃ kept,
      outcomeIn ⟨.standard, []⟩ flaggedItems "A.Where(x => x.B).Where(x => x.C)" .start =
          .ok (.nodes kept) ∧
        outcomeIn ⟨.standard, []⟩ flaggedItems "A.Where(x => (x.B) && (x.C))" .start =
          .ok (.nodes kept)) ∧
    ∃ kept f, outcomeIn ⟨.standard, []⟩ flaggedItems "A.Where(x => x.B)" .start =
        .ok (.nodes kept) ∧
      kept.length = 2 ∧
      told (outcomeIn ⟨.standard, []⟩ flaggedItems "A.Where(x => x.B).Select(x => x.N)" .start) =
        told (do
          let parts ← kept.mapM fun n =>
            (evaluate (flaggedItems.bind 0 n 0) f).outcome.map (·.contribution n.path)
          .ok (.nodes parts.flatten)) := by
  let dot : Operator := ⟨".", .binary, 100⟩
  let member name := Expr.binary dot (.name "x" .start) (.name name .start) .start
  obtain ⟨hfilters, hprojection, -⟩ := @filters_compose ⟨.standard, []⟩
    Vocabulary.standard.extends_self flaggedItems flaggedItems.covers_nil dot
    ⟨"&&", .binary, 30⟩ rfl rfl "x" (.name "A" .start) (member "B") (member "C") (member "N")
  constructor
  · obtain ⟨v, hv⟩ := Except.exists_of_isOk (show (outcomeIn ⟨.standard, []⟩ flaggedItems
      "A.Where(x => x.B).Where(x => x.C)" .start).isOk by decide +kernel)
    obtain ⟨hiff, hnodes⟩ := hfilters "A.Where(x => x.B).Where(x => x.C)" .start
      "A.Where(x => (x.B) && (x.C))" .start (Language.parses_of_gathered rfl)
      (Language.parses_of_gathered rfl) v
    obtain ⟨kept, rfl⟩ := hnodes hv
    exact ⟨kept, hv, hiff.1 hv⟩
  · obtain ⟨kept, hkept, hlength⟩ : ∃ kept,
        outcomeIn ⟨.standard, []⟩ flaggedItems "A.Where(x => x.B)" .start = .ok (.nodes kept) ∧
          kept.length = 2 := by
      refine ⟨_, rfl, ?_⟩
      decide +kernel
    exact ⟨kept, _, hkept, hlength, hprojection "A.Where(x => x.B)" .start
      "A.Where(x => x.B).Select(x => x.N)" .start kept (Language.parses_of_gathered rfl)
      (Language.parses_of_gathered rfl) hkept⟩

end DocQuery
