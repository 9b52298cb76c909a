/-
Positions behind a name and positions given to `At`.

* `descend?` — what a list of positions leads to in nested arrays;
* `outcome_evaluateIndexes`, `outcome_evaluateAt` — the two ways of following positions both lead
  there;
* `indexing_agrees` — so `A.At(i, j)` and `A[i, j]` come to the same.

Design notes: behind a name every position is evaluated, also when an earlier one has led nowhere,
and what leads nowhere goes on as an absent value. `At` counts its first position in the items of
the collection, every other one in those of what has been found, and stops at the first that leads
nowhere. Both are compared with one recursion on the positions, which knows of neither.
-/
import DocQuery.Proofs.Formula.Counting
import DocQuery.Proofs.Formula.Flattening

namespace DocQuery

/-! ### Going down -/

/-- The item at a position. There is none before the first item, and none behind the last. -/
def itemAt? (items : List Node) (position : Int) : Option Node :=
  position.toNat?.bind fun k => items[k]?

/-- What positions lead to, each of them in the array that the one before it led to. They lead
nowhere as soon as one of them does, or is applied to what is no array. -/
def descend? (items : List Node) : List Int → Option Node
  | [] => none
  | [position] => itemAt? items position
  | position :: positions => do
    let n ← itemAt? items position
    let inner ← n.items?
    descend? inner positions

theorem itemAt?_nil (position : Int) : itemAt? [] position = none := by
  rw [itemAt?]
  cases position.toNat? <;> rfl

theorem descend?_nil (positions : List Int) : descend? [] positions = none := by
  match positions with
  | [] => rfl
  | [_] => exact itemAt?_nil _
  | _ :: _ :: _ =>
    rw [descend?, itemAt?_nil]
    · rfl
    · simp

/-- What is no array has no items, and nothing is found among none. -/
theorem descend?_cons_cons (items : List Node) (i j : Int) (positions : List Int) :
    descend? items (i :: j :: positions) =
      (itemAt? items i).bind fun n => descend? (n.items?.getD []) (j :: positions) := by
  rw [descend?]
  · refine congrArg (itemAt? items i).bind (funext fun n => ?_)
    cases n.items? with
    | none => exact (descend?_nil _).symm
    | some inner => rfl
  · simp

/-! ### Following positions -/

theorem View.item_eq (view : View) (k : Nat) : view.item k = .single view.items[k]? := by
  cases view with
  | many items => rfl
  | single found =>
    cases found with
    | none => rfl
    | some n =>
      show View.single (n.items?.bind _) = .single (n.items?.getD [])[k]?
      cases n.items? <;> rfl

/-- Whether a formula comes to a number without a fraction, whose whole part is `position`. -/
def Formula.CountsTo (c : Context) (f : Formula) (position : Int) : Prop :=
  ∃ v x, (evaluate c f).outcome = .ok v ∧ Operand.wholeNumber ⟨v, f.position⟩ = .ok x ∧
    Number.integerPart x = position

section Following

variable {c : Context} {isTracked : Bool}
  {f : Formula} {fs : List Formula} {i : Int} {is : List Int}

theorem outcome_evaluateIndexes_cons (hf : f.CountsTo c i) (view : View) (fs : List Formula) :
    (evaluateIndexes c isTracked view (f :: fs)).outcome =
      (evaluateIndexes c isTracked (.single (itemAt? view.items i)) fs).outcome := by
  obtain ⟨v, x, hv, hx, rfl⟩ := hf
  rw [evaluateIndexes, Traced.outcome_bind, hv, Except.ok_bind, Traced.outcome_bind,
    Operand.index_eq_ok hx, Traced.ofExcept, Except.ok_bind, Traced.outcome_see, itemAt?]
  cases (Number.integerPart x).toNat? with
  | none => rfl
  | some k => rw [Option.elim_some, Option.bind_some, View.item_eq]

/-- Positions behind a name lead to where they lead. -/
theorem outcome_evaluateIndexes (hf : f.CountsTo c i)
    (hfs : List.Forall₂ (Formula.CountsTo c) fs is) (view : View) :
    (evaluateIndexes c isTracked view (f :: fs)).outcome =
      .ok (.single (descend? view.items (i :: is))) := by
  induction hfs generalizing view f i with
  | nil =>
    rw [outcome_evaluateIndexes_cons hf, evaluateIndexes]
    rfl
  | @cons g j fs is hg _ ih =>
    rw [outcome_evaluateIndexes_cons hf, ih hg, descend?_cons_cons]
    cases itemAt? view.items i with
    -- the other positions are followed from an absent value, which has no items
    | none => exact congrArg (Except.ok ∘ View.single) (descend?_nil _)
    | some n => rfl

theorem outcome_evaluateAt_cons (hf : f.CountsTo c i) (items : List Node) (found : Option Node)
    (fs : List Formula) :
    (evaluateAt c isTracked items found (f :: fs)).outcome =
      match itemAt? items i with
      | none => .ok none
      | some n => (evaluateAt c isTracked (n.items?.getD []) (some n) fs).outcome := by
  obtain ⟨v, x, hv, hx, rfl⟩ := hf
  rw [evaluateAt_cons, Traced.outcome_bind, hv, Except.ok_bind, Traced.outcome_bind,
    Operand.index_eq_ok hx, Traced.ofExcept, Except.ok_bind, Traced.outcome_see]
  show Traced.outcome (match itemAt? items (Number.integerPart x) with
    | none => _
    | some n => _) = _
  cases itemAt? items (Number.integerPart x) <;> rfl

/-- The positions given to `At` lead to where they lead. -/
theorem outcome_evaluateAt (hf : f.CountsTo c i) (hfs : List.Forall₂ (Formula.CountsTo c) fs is)
    (items : List Node) (found : Option Node) :
    (evaluateAt c isTracked items found (f :: fs)).outcome = .ok (descend? items (i :: is)) := by
  induction hfs generalizing items found f i with
  | nil =>
    rw [outcome_evaluateAt_cons hf, descend?]
    cases itemAt? items i with
    | none => rfl
    | some n =>
      simp only [evaluateAt]
      rfl
  | @cons g j fs is hg _ ih =>
    rw [outcome_evaluateAt_cons hf, descend?_cons_cons]
    cases itemAt? items i with
    | none => rfl
    | some n => exact ih hg _ _

end Following

/-! ### Chains and texts -/

namespace Value.Lists

variable {items : List Node} {v : Value}

theorem items_ofValue (h : v.Lists items) (path : Path) : (View.ofValue path v).items = items := by
  cases h <;> rfl

theorem items_eq (h : v.Lists items) (path : Path) (function : String) (p : Position) :
    (View.ofValue path v).toValue.items function p = .ok items := by
  cases h <;> rfl

end Value.Lists

namespace Chain.Lists

variable {c : Context} {chain : Chain} {items : List Node} {fs : List Formula} {is : List Int}

/-- An array or a collection with positions behind it comes to what they lead to. -/
theorem outcome_index (h : chain.Lists c items) (hfs : List.Forall₂ (Formula.CountsTo c) fs is)
    (hne : fs ≠ []) :
    (chain.extend [.index fs]).outcome c = .ok (.ofNode? (descend? items is)) := by
  obtain ⟨v, hv, hitems⟩ := h
  cases hfs with
  | nil => exact absurd rfl hne
  | cons hf hfs =>
    rw [outcome_extend, hv, Except.ok_bind, evaluateStep, outcome_evaluateIndexes hf hfs,
      hitems.items_ofValue, Except.ok_bind]
    cases descend? items _ <;> rfl

/-- An array or a collection with positions given to `At` comes to what they lead to. -/
theorem outcome_at (h : chain.Lists c items) (hfs : List.Forall₂ (Formula.CountsTo c) fs is)
    (hne : fs ≠ []) (p : Position) :
    (chain.extend [.at fs p]).outcome c = .ok (.ofNode? (descend? items is)) := by
  obtain ⟨v, hv, hitems⟩ := h
  cases hfs with
  | nil => exact absurd rfl hne
  | cons hf hfs =>
    rw [outcome_extend, hv, Except.ok_bind, evaluateStep, Traced.outcome_bind, Traced.ofExcept,
      hitems.items_eq, Except.ok_bind, Traced.outcome_bind, outcome_evaluateAt hf hfs,
      Except.ok_bind]
    cases descend? items _ <;> rfl

end Chain.Lists

namespace Expr

/-- Whether an expression comes to the number `x`, or to a text that spells it, and `x` has no
fraction. -/
def CountsTo (s : Naming) (c : Context) (e : Expr) (x : Float) : Prop :=
  ∃ v, e.outcome s c = .ok v ∧ v.toNumber .start = .ok x ∧ Number.isIntegral x

/-- Whether `indexed` is the expression `e`, which ends in a name, with positions at that name. -/
inductive IsIndexed (s : Naming) (indexes : List Expr) : Expr → Expr → Prop
  | name {n : String} : Qualifier.ofName? n = none → s.vocabulary.constants.lookup n = none →
    IsIndexed s indexes (.name n .start) (.index n indexes .start)
  | member {dot : Operator} {left : Expr} {n : String} : dot.name = pathOperator →
    IsIndexed s indexes (.binary dot left (.name n .start) .start)
      (.binary dot left (.index n indexes .start) .start)

end Expr

section Texts

variable {s : Naming} {c : Context}

theorem Expr.CountsTo.formula {e : Expr} {x : Float} (h : e.CountsTo s c x) :
    ∃ f, compile s e = .ok f ∧ f.CountsTo c (Number.integerPart x) := by
  obtain ⟨v, hv, hx, hwhole⟩ := h
  obtain ⟨f, hf, hv⟩ := Except.bind_eq_ok_iff.1 hv
  exact ⟨f, hf, v, x, hv,
    Operand.wholeNumber_eq_ok_iff.mpr ⟨(Value.toNumber_congr rfl).1 hx, hwhole⟩, rfl⟩

/-- Positions that count have formulas that count. -/
theorem exists_compileAll {es : List Expr} {xs : List Float}
    (h : List.Forall₂ (Expr.CountsTo s c) es xs) :
    ∃ fs, compileAll s es = .ok fs ∧ fs.length = es.length ∧
      List.Forall₂ (Formula.CountsTo c) fs (xs.map Number.integerPart) := by
  induction h with
  | nil => exact ⟨[], rfl, rfl, .nil⟩
  | cons he _ ih =>
    obtain ⟨f, hf, hcounts⟩ := he.formula
    obtain ⟨fs, hfs, hlength, hall⟩ := ih
    refine ⟨f :: fs, ?_, congrArg (· + 1) hlength, .cons hcounts hall⟩
    rw [compileAll, ← compile, hf, hfs]
    rfl

theorem Expr.IsIndexed.isLoosePath_eq {indexes : List Expr} {e indexed : Expr}
    (h : e.IsIndexed s indexes indexed) : indexed.isLoosePath = false := by
  cases h <;> rfl

/-- The chain of an expression with positions at its last name. -/
theorem Expr.IsIndexed.link_eq {indexes : List Expr} {e indexed : Expr}
    (h : e.IsIndexed s indexes indexed) :
    link s none indexed = (do
      let chain ← link s none e
      let fs ← compileAll s indexes
      .ok (chain.extend [.index fs])) := by
  cases h with
  | @name n hqualifier hconstant =>
    rw [link, link, Naming.beginName, hqualifier]
    simp only [hconstant]
    rfl
  | member hdot =>
    rw [link_path s hdot, link_path s hdot, bind_assoc]
    refine bind_congr fun chain => ?_
    rw [link, link, Except.ok_bind]
    exact bind_congr fun fs => congrArg Except.ok (Chain.member_eq_extend chain _ _)

theorem link_positions (hmeaning : s.vocabulary.selectors.lookup "At" = some .positions)
    (chain : Chain) {indexes : List Expr} (hne : indexes ≠ []) (p : Position) :
    link s (some chain) (.call "At" indexes p) =
      (compileAll s indexes).map fun fs => chain.extend [.at fs p] := by
  obtain ⟨first, rest, rfl⟩ := List.exists_cons_of_ne_nil hne
  rw [link]
  simp only [hmeaning]
  rcases compileAll s (first :: rest) with fault | fs <;> rfl

end Texts

/-- `At` with positions and positions behind a name agree. Behind every array and every collection,
both come to what the positions lead to, which is nothing as soon as one of them is negative, is
too large, or is applied to what is no array. This holds of texts, where the array or collection
ends in a name, and of every chain whatever it ends in. -/
theorem indexing_agrees {s : Naming}
    (hmeaning : s.vocabulary.selectors.lookup "At" = some .positions) (c : Context)
    {dot : Operator} (hdot : dot.name = pathOperator) {collection : Expr} {text : String}
    {origin : Position} (htext : s.dialect.language.Parses text origin collection) {v : Value}
    (hvalue : outcomeIn s c text origin = .ok v) {items : List Node} (hitems : v.Lists items)
    {indexes : List Expr} {xs : List Float} (hne : indexes ≠ [])
    (hindexes : List.Forall₂ (Expr.CountsTo s c) indexes xs) :
    let l := s.dialect.language
    let found := Value.ofNode? (descend? items (xs.map Number.integerPart))
    (∀ text origin, l.Parses text origin (collection.selecting dot "At" indexes) →
      outcomeIn s c text origin = .ok found) ∧
    (∀ indexed, collection.IsIndexed s indexes indexed →
      ∀ text origin, l.Parses text origin indexed → outcomeIn s c text origin = .ok found) ∧
    ∃ fs, compileAll s indexes = .ok fs ∧ ∀ chain : Chain, chain.Lists c items →
      (chain.extend [.index fs]).outcome c = .ok found ∧
      ∀ p, (chain.extend [.at fs p]).outcome c = .ok found := by
  obtain ⟨chain, hchain, -, hlists⟩ :=
    Expr.Lists.of_outcome (htext.outcomeIn_eq_ok_iff.1 hvalue) hitems
  obtain ⟨fs, hfs, hlength, hcounts⟩ := exists_compileAll hindexes
  have hsome : fs ≠ [] := by
    rintro rfl
    exact hne (List.length_eq_zero_iff.1 hlength.symm)
  refine ⟨?positions, ?indexed, fs, hfs, ?chains⟩
  case positions =>
    intro text origin hparses
    rw [hparses.outcomeIn_eq_ok_iff, Expr.selecting, Expr.outcome_path, link_path s hdot, hchain,
      Except.ok_bind, link_positions hmeaning chain hne, hfs]
    exact hlists.outcome_at hcounts hsome _
  case indexed =>
    intro indexed hindexed text origin hparses
    rw [hparses.outcomeIn_eq_ok_iff, Expr.outcome_eq_bind hindexed.isLoosePath_eq, hindexed.link_eq,
      hchain, Except.ok_bind, hfs]
    exact hlists.outcome_index hcounts hsome
  case chains =>
    intro chain hlists
    exact ⟨hlists.outcome_index hcounts hsome, hlists.outcome_at hcounts hsome⟩

theorem indexing_agrees_nested :
    (∃ n, n.path = ⟨"D", [.member "A", .item 0, .item 1]⟩ ∧
      outcomeIn ⟨.standard, []⟩ nestedItems "A.At(0, 1)" .start = .ok (.node n) ∧
      outcomeIn ⟨.standard, []⟩ nestedItems "A[0, 1]" .start = .ok (.node n)) ∧
    outcomeIn ⟨.standard, []⟩ nestedItems "A.At(0, -1)" .start = .ok .undefined ∧
    outcomeIn ⟨.standard, []⟩ nestedItems "A[0, -1]" .start = .ok .undefined := by
  let dot : Operator := ⟨".", .binary, 100⟩
  let minus : Operator := ⟨"-", .before, 80⟩
  let zero : Expr := .number "0" .start
  let one : Expr := .number "1" .start
  obtain ⟨v, items, hvalue, hitems, hfound, hnone⟩ : ∃ (v : Value) (items : List Node),
      outcomeIn ⟨.standard, []⟩ nestedItems "A" .start = .ok v ∧ v.Lists items ∧
        (descend? items [0, 1]).map Node.path = some ⟨"D", [.member "A", .item 0, .item 1]⟩ ∧
        (descend? items [0, -1]).map Node.path = none := by
    refine ⟨_, _, rfl, .array _, ?_, ?_⟩ <;> decide +kernel
  have hzero : zero.CountsTo ⟨.standard, []⟩ nestedItems 0 :=
    ⟨.number 0, rfl, rfl, by decide +kernel⟩
  have hone : one.CountsTo ⟨.standard, []⟩ nestedItems 1 :=
    ⟨.number 1, rfl, rfl, by decide +kernel⟩
  have hminus : (Expr.before minus one .start).CountsTo ⟨.standard, []⟩ nestedItems (-1) :=
    ⟨.number (-1), rfl, rfl, by decide +kernel⟩
  have hpositions : ([0, 1] : List Float).map Number.integerPart = [0, 1] ∧
      ([0, -1] : List Float).map Number.integerPart = [0, -1] := by
    decide +kernel
  have hindexing := @indexing_agrees ⟨.standard, []⟩ rfl nestedItems dot rfl (.name "A" .start) "A"
    .start (Language.parses_of_gathered rfl) v hvalue items hitems
  have hname (indexes : List Expr) : (Expr.name "A" .start).IsIndexed ⟨.standard, []⟩ indexes
      (.index "A" indexes .start) :=
    .name rfl rfl
  constructor
  · obtain ⟨n, hn, hpath⟩ := Option.map_eq_some_iff.1 hfound
    obtain ⟨hat, hindexed, -⟩ :=
      hindexing (List.cons_ne_nil zero [one]) (.cons hzero (.cons hone .nil))
    rw [hpositions.1, hn] at hat hindexed
    exact ⟨n, hpath, hat _ _ (Language.parses_of_gathered rfl),
      hindexed _ (hname _) _ _ (Language.parses_of_gathered rfl)⟩
  · obtain ⟨hat, hindexed, -⟩ :=
      hindexing (List.cons_ne_nil zero [_]) (.cons hzero (.cons hminus .nil))
    rw [hpositions.2, Option.map_eq_none_iff.1 hnone] at hat hindexed
    exact ⟨hat _ _ (Language.parses_of_gathered rfl),
      hindexed _ (hname _) _ _ (Language.parses_of_gathered rfl)⟩

end DocQuery
