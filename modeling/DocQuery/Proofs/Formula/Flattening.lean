/-
Collections of nested arrays.

* `locate`, `AreMembersOf` — the members of a name in all objects that only arrays surround, with
  the indexes that lead there, in the order of the document;
* `searchAll_flatMap_spread` — one level of arrays less is nothing to a search;
* `Chain.Lists.outcome_member` — a name behind a collection comes to a search of its items;
* `flattening_is_neutral` — the same for the texts of lookups.

Design notes: a search goes down through arrays of any depth, so what it finds is told by the
indexes that lead there, and its order is that of these lists of indexes. A name behind a bare
qualifier is no member of a value: the qualifier says in which documents the name is searched. In
parentheses the same qualifier is a value like any other.
-/
import DocQuery.Proofs.Draft.Frozen
import DocQuery.Proofs.Formula.Filtering
import Mathlib.Algebra.GroupWithZero.Nat

namespace DocQuery

/-! ### What a search finds -/

mutual

/-- The members of a name in a value, with the indexes that lead to their objects. -/
def Node.locate (name : String) : Node → List (List Nat × Node)
  | .array _ items => Node.locateAll name 0 items
  | .object p members => ((Node.object p members).member? name).toList.map fun m => ([], m)
  | .scalar _ _ => []

/-- The members of a name in items, the first of which has the index `k`. -/
def Node.locateAll (name : String) (k : Nat) : List Node → List (List Nat × Node)
  | [] => []
  | n :: ns =>
    (n.locate name).map (fun found => (k :: found.1, found.2)) ++ Node.locateAll name (k + 1) ns

end

namespace Node

mutual

theorem map_locate (name : String) : (n : Node) → (n.locate name).map (·.2) = n.search name
  | .array _ items => by
    rw [locate, search]
    exact map_locateAll name 0 items
  | .object p members => by
    rw [locate, search, List.map_map]
    exact List.map_id _
  | .scalar _ _ => rfl

theorem map_locateAll (name : String) (k : Nat) :
    (ns : List Node) → (locateAll name k ns).map (·.2) = searchAll name ns
  | [] => rfl
  | n :: ns => by
    rw [locateAll, searchAll, List.map_append, List.map_map, map_locateAll name (k + 1) ns,
      ← map_locate name n]
    rfl

end

mutual

/-- What is located is found where its indexes lead, and all that is found so is located. -/
theorem mem_locate_iff (name : String) (m : Node) : (n : Node) → (keys : List Nat) →
    ((keys, m) ∈ n.locate name ↔
      ∃ o, n.at? (keys.map .item) = some o ∧ o.member? name = some m)
  | .array p items, [] => by
    rw [locate, mem_locateAll_iff]
    constructor
    · rintro ⟨i, is, n, o, hkeys, -⟩
      cases hkeys
    · rintro ⟨o, ho, hmember⟩
      obtain rfl := Option.some.inj ho
      cases hmember
  | .array p items, key :: keys => by
    rw [locate, mem_locateAll_iff]
    constructor
    · rintro ⟨i, is, n, o, hkeys, hn, ho, hmember⟩
      rw [Nat.zero_add] at hkeys
      obtain ⟨rfl, rfl⟩ := List.cons.inj hkeys
      refine ⟨o, ?_, hmember⟩
      show (items[key]?).bind _ = some o
      rw [hn]
      exact ho
    · rintro ⟨o, ho, hmember⟩
      obtain ⟨n, hn, ho⟩ := Option.bind_eq_some_iff.1 ho
      exact ⟨key, keys, n, o, by rw [Nat.zero_add], hn, ho, hmember⟩
  | .object p members, [] => by
    rw [locate]
    simp [at?]
  | .object p members, key :: keys => by
    rw [locate]
    simp [at?, items?]
  | .scalar p s, [] => by
    rw [locate]
    simp [at?, member?, members?]
  | .scalar p s, key :: keys => by
    rw [locate]
    simp [at?, items?]

theorem mem_locateAll_iff (name : String) (m : Node) :
    (ns : List Node) → (k : Nat) → (keys : List Nat) →
    ((keys, m) ∈ locateAll name k ns ↔
      ∃ i is n o, keys = (k + i) :: is ∧ ns[i]? = some n ∧ n.at? (is.map .item) = some o ∧
        o.member? name = some m)
  | [], k, keys => by
    simp [locateAll]
  | n :: ns, k, keys => by
    rw [locateAll, List.mem_append, mem_locateAll_iff, List.mem_map]
    constructor
    · rintro (⟨⟨is, m'⟩, hlocated, heq⟩ | ⟨i, is, n', o, rfl, hrest⟩)
      · obtain ⟨rfl, rfl⟩ := Prod.mk.inj heq
        obtain ⟨o, ho, hmember⟩ := (mem_locate_iff name m' n is).1 hlocated
        exact ⟨0, is, n, o, rfl, rfl, ho, hmember⟩
      · exact ⟨i + 1, is, n', o, by rw [Nat.add_assoc, Nat.add_comm 1], hrest⟩
    · rintro ⟨i, is, n', o, rfl, hn, ho, hmember⟩
      cases i with
      | zero =>
        obtain rfl := Option.some.inj hn
        exact .inl ⟨(is, m), (mem_locate_iff name m n is).2 ⟨o, ho, hmember⟩, rfl⟩
      | succ i =>
        exact .inr ⟨i, is, n', o, by rw [Nat.add_assoc, Nat.add_comm 1], hn, ho, hmember⟩

end

mutual

/-- What is located stands in the order of the document. -/
theorem pairwise_locate (name : String) :
    (n : Node) → (n.locate name).Pairwise fun a b => a.1 < b.1
  | .array _ items => by
    rw [locate]
    exact pairwise_locateAll name 0 items
  | .object p members => by
    rw [locate]
    cases (Node.object p members).member? name <;> simp
  | .scalar _ _ => .nil

theorem pairwise_locateAll (name : String) (k : Nat) :
    (ns : List Node) → (locateAll name k ns).Pairwise fun a b => a.1 < b.1
  | [] => .nil
  | n :: ns => by
    rw [locateAll, List.pairwise_append]
    refine ⟨?_, pairwise_locateAll name (k + 1) ns, ?_⟩
    · rw [List.pairwise_map]
      exact (pairwise_locate name n).imp fun hlt => List.cons_lt_cons_iff.2 (.inr ⟨rfl, hlt⟩)
    · rintro a ha ⟨keys, m⟩ hb
      obtain ⟨found, -, rfl⟩ := List.mem_map.1 ha
      obtain ⟨i, is, n', o, rfl, -⟩ := (mem_locateAll_iff name m ns (k + 1) keys).1 hb
      exact List.cons_lt_cons_iff.2 (.inl (by omega))

end

theorem searchAll_append (name : String) (ns ms : List Node) :
    searchAll name (ns ++ ms) = searchAll name ns ++ searchAll name ms := by
  induction ns with
  | nil => rfl
  | cons n ns ih => rw [List.cons_append, searchAll, searchAll, ih, List.append_assoc]

theorem searchAll_spread (name : String) (n : Node) : searchAll name n.spread = n.search name := by
  cases n with
  | array p items =>
    rw [search]
    rfl
  | object | scalar => exact List.append_nil _

/-- A search goes through arrays anyway, so one level of them less is nothing to it. -/
theorem searchAll_flatMap_spread (name : String) (ns : List Node) :
    searchAll name (ns.flatMap spread) = searchAll name ns := by
  induction ns with
  | nil => rfl
  | cons n ns ih => rw [List.flatMap_cons, searchAll_append, searchAll_spread, ih, searchAll]

end Node

/-- Whether `found` are the members of a name in all the objects that only arrays surround in
`items`, each with the indexes that lead to its object, in the order of the document. -/
structure AreMembersOf (name : String) (items : List Node) (found : List (List Nat × Node)) :
    Prop where
  ordered : found.Pairwise fun a b => a.1 < b.1
  mem_iff : ∀ keys m, (keys, m) ∈ found ↔
    ∃ i is n o, keys = i :: is ∧ items[i]? = some n ∧ n.at? (is.map .item) = some o ∧
      o.member? name = some m

/-- A search finds the members in the order of the document. -/
theorem Node.exists_searchAll (name : String) (items : List Node) :
    ∃ found, AreMembersOf name items found ∧ searchAll name items = found.map (·.2) := by
  refine ⟨locateAll name 0 items, ⟨pairwise_locateAll name 0 items, fun keys m => ?_⟩,
    (map_locateAll name 0 items).symm⟩
  rw [mem_locateAll_iff]
  simp only [Nat.zero_add]

/-! ### Names behind a collection -/

/-- Whether a value is an array or a collection, with these items. -/
inductive Value.Lists (items : List Node) : Value → Prop
  | array (p : Place) : Lists items (.node (.array p items))
  | collection : Lists items (.nodes items)

/-- Whether an expression is nothing but a word that settles where the next name is searched. -/
def Expr.isQualifier : Expr → Bool
  | .name n _ => (Qualifier.ofName? n).isSome
  | _ => false

/-- Whether an expression is a name, plain or quoted, as it can stand behind a point. -/
inductive Expr.Names (name : String) : Expr → Prop
  | plain (p : Position) : Names name (.name name p)
  | quoted (p : Position) : Names name (.text name p)

namespace Chain

/-- Whether a chain is a word that settles where the next name is searched. -/
def isQualifier : Chain → Bool
  | qualifier _ _ => true
  | lookup _ _ _ | follow _ _ _ => false

theorem isQualifier_extend (chain : Chain) (more : List Step) :
    (chain.extend more).isQualifier = false := by
  cases chain <;> rfl

theorem isQualifier_member (chain : Chain) (name : String) (more : List Step) :
    (chain.member name more).isQualifier = false := by
  cases chain <;> rfl

theorem member_of_not_isQualifier {chain : Chain} (h : chain.isQualifier = false) (name : String) :
    chain.member name [] = chain.extend [.member name] := by
  cases chain with
  | qualifier => cases h
  | lookup | follow => rfl

end Chain

/-- What goes on with a chain settles nothing for a name behind it. -/
theorem Links.isQualifier_of_some {s : Naming} {b chain : Chain} {e : Expr}
    (h : Links s (some b) e chain) : chain.isQualifier = false := by
  cases h with
  | memberName | memberText | memberIndex => exact b.isQualifier_member _ _
  | looseBefore _ hc | looseAfter _ hc => exact hc.isQualifier_of_some
  | path _ _ hright => exact hright.isQualifier_of_some
  | through | arrange | positions | custom => exact b.isQualifier_extend _
termination_by sizeOf e

theorem Naming.isQualifier_beginName (s : Naming) (name : String) (p : Position) :
    (s.beginName name p).isQualifier = (Expr.name name p).isQualifier := by
  show _ = (Qualifier.ofName? name).isSome
  rw [beginName]
  cases Qualifier.ofName? name with
  | some q => rfl
  | none => cases s.vocabulary.constants.lookup name <;> rfl

theorem Links.isQualifier_eq {s : Naming} {chain : Chain} {e : Expr} (h : Links s none e chain)
    (hloose : e.isLoosePath = false) : chain.isQualifier = e.isQualifier := by
  cases h with
  | name n p => exact s.isQualifier_beginName n p
  | looseBefore hpath | looseAfter hpath =>
    rw [Expr.isLoosePath, hpath] at hloose
    cases hloose
  | path _ _ hright => exact hright.isQualifier_of_some
  | text | number | index | group | before | after | binary | aggregate | aggregateBy | call => rfl

/-- An expression that is no part of a longer chain comes to what its own chain comes to. -/
theorem Expr.outcome_eq_ok_iff {s : Naming} {c : Context} {e : Expr} {v : Value} :
    e.outcome s c = .ok v ↔
      ∃ chain, link s none e = .ok chain ∧ chain.isQualifier = e.isQualifier ∧
        e.isLoosePath = false ∧ chain.outcome c = .ok v := by
  rw [outcome, Except.bind_eq_ok_iff]
  constructor
  · rintro ⟨f, hf, hv⟩
    obtain ⟨hloose, chain, hchain, rfl⟩ := sealChain_eq_ok_iff.1 hf
    exact ⟨chain, hchain, (links_iff.1 hchain).isQualifier_eq hloose, hloose, hv⟩
  · rintro ⟨chain, hchain, -, hloose, hv⟩
    exact ⟨_, sealChain_eq_ok_iff.2 ⟨hloose, chain, hchain, rfl⟩, hv⟩

section Chains

/-- The parameter of a lambda stands for the item that the lambda is applied to. -/
theorem evaluate_item (c : Context) (lambda : Nat) (x : String) (p : Position) (n : Node)
    (i : Nat) :
    evaluate (c.bind lambda n i) (.lookup (.parameter lambda x .item) [] p) =
      (Traced.see (Value.node n).sightings >>= fun _ => pure (.node n)) := by
  have hresolve : Start.resolve (c.bind lambda n i) (.parameter lambda x .item) =
      .ok (.node n) := by
    simp [Start.resolve, Context.bind, Context.binding?]
  rw [evaluate, hresolve]
  rfl

theorem ignoresIndex_item (c : Context) (lambda : Nat) (x : String) (p : Position) :
    (Formula.lookup (.parameter lambda x .item) [] p).IgnoresIndex c lambda := by
  intro n i j
  simp only [Formula.interpretFor, Formula.sense_operand, evaluate_item]

theorem contributionFor_item (c : Context) (lambda : Nat) (x : String) (p : Position) :
    (Formula.lookup (.parameter lambda x .item) [] p).contributionFor c lambda =
      fun n => .ok n.spread := by
  funext n
  rw [Formula.contributionFor, evaluate_item]
  rfl

variable {s : Naming} {c : Context} {chain : Chain} {items : List Node}

/-- Whether a chain comes to an array or a collection with these items. -/
def Chain.Lists (c : Context) (chain : Chain) (items : List Node) : Prop :=
  ∃ v : Value, chain.outcome c = .ok v ∧ v.Lists items

namespace Chain.Lists

theorem foundItems_eq (h : chain.Lists c items) (function : String) (p : Position) :
    chain.foundItems c function p = .ok items := by
  obtain ⟨v, hv, hlists⟩ := h
  refine foundItems_of_items hv (fun _ _ => ?_) function p
  cases hlists <;> rfl

/-- A name behind a collection comes to a search of its items. -/
theorem outcome_member (h : chain.Lists c items) (hq : chain.isQualifier = false) (name : String) :
    (chain.member name []).outcome c = .ok (.nodes (Node.searchAll name items)) := by
  obtain ⟨v, hv, hlists⟩ := h
  rw [member_of_not_isQualifier hq, outcome_extend, hv]
  cases hlists <;> rfl

theorem outcome_flatten (h : chain.Lists c items) (p : Position) :
    (chain.extend [.arrange .flatten p]).outcome c = .ok (.nodes (items.flatMap Node.spread)) := by
  rw [outcome_extend_arrange, h.foundItems_eq]
  rfl

/-- A projection of each item to itself flattens. -/
theorem outcome_project_item (h : chain.Lists c items) (lambda : Nat) (x : String)
    (p q : Position) :
    (chain.extend [.through .project lambda (.lookup (.parameter lambda x .item) [] p) q]).outcome
        c = .ok (.nodes (items.flatMap Node.spread)) := by
  rw [outcome_extend_through, h.foundItems_eq, Except.ok_bind,
    outcome_project (ignoresIndex_item c lambda x p), contributionFor_item,
    show items.mapM (fun n => Except.ok n.spread) = .ok (items.map Node.spread) from List.mapM_pure]
  rfl

/-- A filter that keeps every item keeps the collection. -/
theorem outcome_filter_true (h : chain.Lists c items) (lambda : Nat) (p q : Position) :
    (chain.extend [.through .filter lambda (.constant (.boolean true) p) q]).outcome c =
      .ok (.nodes items) := by
  have hfilters : Filters ((Formula.constant (.boolean true) p).conditionFor c lambda) items items :=
    ⟨fun n _ => rfl, (List.filter_eq_self.2 fun n _ => rfl).symm⟩
  exact (outcome_extend_filter_iff (fun n i j => rfl) q).2
    ⟨items, items, h.foundItems_eq _ _, hfilters, rfl⟩

end Chain.Lists

end Chains

/-! ### Names behind the text of a collection -/

/-- A name that is no qualifier is a constant, or a lookup. -/
theorem compile_name (s : Naming) {name : String} (hqualifier : Qualifier.ofName? name = none)
    (p : Position) :
    compile s (.name name p) =
      .ok (match s.vocabulary.constants.lookup name with
        | some v => .constant v p
        | none => .lookup (s.startOf name) [] p) := by
  show (link s none (.name name p)).map Chain.formula = _
  rw [link, Naming.beginName, hqualifier]
  cases s.vocabulary.constants.lookup name <;> rfl

/-- The parameter of a lambda is compiled to a lookup of the item, if the name means nothing else. -/
theorem compile_parameter (s : Naming) {x : String} (hqualifier : Qualifier.ofName? x = none)
    (hconstant : s.vocabulary.constants.lookup x = none) (p : Position) :
    compile (s.enter [x]) (.name x p) =
      .ok (.lookup (.parameter s.lambdas.length x .item) [] p) := by
  have hstart : (s.enter [x]).startOf x = .parameter s.lambdas.length x .item := by
    simp [Naming.startOf, Naming.enter, parameterNamed?, List.idxOf?_cons]
  rw [compile_name _ hqualifier, show (s.enter [x]).vocabulary.constants.lookup x = none from
    hconstant, hstart]

/-- Whether the chain of an expression comes to an array or a collection with these items. -/
def Expr.Lists (s : Naming) (c : Context) (e : Expr) (items : List Node) : Prop :=
  ∃ chain, link s none e = .ok chain ∧ chain.isQualifier = e.isQualifier ∧ chain.Lists c items

namespace Expr.Lists

variable {s : Naming} {c : Context} {dot : Operator} {e right : Expr} {items : List Node}

theorem of_outcome {v : Value} (h : e.outcome s c = .ok v) (hitems : v.Lists items) :
    e.Lists s c items := by
  obtain ⟨chain, hchain, hqualifier, -, hv⟩ := outcome_eq_ok_iff.1 h
  exact ⟨chain, hchain, hqualifier, v, hv, hitems⟩

theorem outcome_member (h : e.Lists s c items) (he : e.isQualifier = false)
    (hdot : dot.name = pathOperator) {name : String} (hright : right.Names name) :
    (Expr.binary dot e right .start).outcome s c = .ok (.nodes (Node.searchAll name items)) := by
  obtain ⟨chain, hchain, hqualifier, hlists⟩ := h
  have hlink : link s (some chain) right = .ok (chain.member name []) := by
    cases hright <;> rw [link]
  rw [outcome_path, link_path s hdot, hchain, Except.ok_bind, hlink, Except.ok_bind,
    hlists.outcome_member (hqualifier.trans he)]

theorem outcome_flatten (h : e.Lists s c items) (hv : s.vocabulary.Extends .standard)
    (hdot : dot.name = pathOperator) :
    (e.selecting dot "Flatten" []).outcome s c = .ok (.nodes (items.flatMap Node.spread)) := by
  obtain ⟨chain, hchain, -, hlists⟩ := h
  rw [selecting, outcome_path, link_path s hdot, hchain, Except.ok_bind,
    link_arrange s (hv.selectors "Flatten" _ rfl), Except.ok_bind, hlists.outcome_flatten]

theorem outcome_taking (h : e.Lists s c items) (hdot : dot.name = pathOperator) {name x : String}
    {selector : LambdaSelector} {body : Expr} {f : Formula} {v : Value}
    (hmeaning : s.vocabulary.selectors.lookup name = some (.lambda selector))
    (hf : compile (s.enter [x]) body = .ok f)
    (hselect : ∀ chain : Chain, chain.Lists c items →
      (chain.extend [.through selector s.lambdas.length f .start]).outcome c = .ok v) :
    (e.taking dot name x body).outcome s c = .ok v := by
  obtain ⟨chain, hchain, -, hlists⟩ := h
  rw [taking, selecting, outcome_path, ← selecting, ← taking, link_taking s hdot hmeaning, hchain,
    Except.ok_bind, hf, Except.ok_bind, Except.ok_bind, hselect chain hlists]

theorem outcome_project (h : e.Lists s c items) (hv : s.vocabulary.Extends .standard)
    (hdot : dot.name = pathOperator) {x : String} (hqualifier : Qualifier.ofName? x = none)
    (hconstant : s.vocabulary.constants.lookup x = none) :
    (e.taking dot "Select" x (.name x .start)).outcome s c =
      .ok (.nodes (items.flatMap Node.spread)) :=
  h.outcome_taking hdot (hv.selectors "Select" _ rfl) (compile_parameter s hqualifier hconstant _)
    fun _ hlists => hlists.outcome_project_item _ x _ _

theorem outcome_filter_true (h : e.Lists s c items) (hv : s.vocabulary.Extends .standard)
    (hdot : dot.name = pathOperator) (x : String) :
    (e.taking dot "Where" x (.name "true" .start)).outcome s c = .ok (.nodes items) := by
  have hname : compile (s.enter [x]) (.name "true" .start) =
      .ok (.constant (.boolean true) .start) := by
    rw [compile_name _ rfl, show (s.enter [x]).vocabulary.constants.lookup "true" = _ from
      hv.constants "true" _ rfl]
  exact h.outcome_taking hdot (hv.selectors "Where" _ rfl) hname fun chain hlists =>
    hlists.outcome_filter_true _ _ _

end Expr.Lists

/-- Flattening puts the items of arrays in the place of the arrays, as a projection of each item to
itself does, and is nothing to a name behind it. Neither is a filter that keeps all items. The name
comes to the members of all objects that only arrays surround. -/
theorem flattening_is_neutral {s : Naming} (hv : s.vocabulary.Extends .standard) (c : Context)
    {dot : Operator} (hdot : dot.name = pathOperator) {collection : Expr} {text : String}
    {origin : Position} (htext : s.dialect.language.Parses text origin collection) {v : Value}
    (hvalue : outcomeIn s c text origin = .ok v) {items : List Node} (hitems : v.Lists items) :
    let l := s.dialect.language
    let flat := collection.selecting dot "Flatten" []
    let pieces := items.map fun n => n.items?.getD [n]
    (∀ text origin, l.Parses text origin flat →
      outcomeIn s c text origin = .ok (.nodes pieces.flatten)) ∧
    pieces.flatten.length = (items.map fun n => (n.items?.map List.length).getD 1).sum ∧
    (∀ x text origin, Qualifier.ofName? x = none → s.vocabulary.constants.lookup x = none →
      l.Parses text origin (collection.taking dot "Select" x (.name x .start)) →
        outcomeIn s c text origin = .ok (.nodes pieces.flatten)) ∧
    ∀ name right, right.Names name → ∃ found, AreMembersOf name items found ∧
      ∀ text origin,
        (collection.isQualifier = false ∧
              l.Parses text origin (.binary dot collection right .start) ∨
            l.Parses text origin (.binary dot (.group collection .start) right .start) ∨
            l.Parses text origin (.binary dot flat right .start) ∨
            l.Parses text origin (.binary dot (flat.selecting dot "Flatten" []) right .start) ∨
            ∃ x, l.Parses text origin
              (.binary dot (collection.taking dot "Where" x (.name "true" .start)) right .start)) →
          outcomeIn s c text origin = .ok (.nodes (found.map Prod.snd)) := by
  have houtcome := htext.outcomeIn_eq_ok_iff.1 hvalue
  have hlists := Expr.Lists.of_outcome houtcome hitems
  have hflat := hlists.outcome_flatten hv hdot
  have hflats := Expr.Lists.of_outcome hflat .collection
  refine ⟨?flatten, ?length, ?project, ?member⟩
  case flatten =>
    intro text origin hparses
    rw [hparses.outcomeIn_eq_ok_iff, hflat, List.flatMap_def]
    rfl
  case length =>
    rw [List.length_flatten, List.map_map]
    congr 2
    funext n
    show (n.items?.getD [n]).length = _
    cases n.items? <;> rfl
  case project =>
    intro x text origin hqualifier hconstant hparses
    rw [hparses.outcomeIn_eq_ok_iff, hlists.outcome_project hv hdot hqualifier hconstant,
      List.flatMap_def]
    rfl
  case member =>
    intro name right hright
    obtain ⟨found, hfound, hsearch⟩ := Node.exists_searchAll name items
    refine ⟨found, hfound, fun text origin hparses => ?_⟩
    rw [← hsearch]
    -- all five forms search the same items, up to one or two levels of arrays
    rcases hparses with ⟨hq, hparses⟩ | hparses | hparses | hparses | ⟨x, hparses⟩ <;>
      rw [hparses.outcomeIn_eq_ok_iff]
    · exact hlists.outcome_member hq hdot hright
    · have hgroup : (Expr.group collection .start).outcome s c = .ok v := by
        rw [Expr.outcome, compile_group]
        exact houtcome
      exact (Expr.Lists.of_outcome hgroup hitems).outcome_member rfl hdot hright
    · rw [hflats.outcome_member rfl hdot hright, Node.searchAll_flatMap_spread]
    · rw [(Expr.Lists.of_outcome (hflats.outcome_flatten hv hdot) .collection).outcome_member rfl
        hdot hright, Node.searchAll_flatMap_spread, Node.searchAll_flatMap_spread]
    · exact (Expr.Lists.of_outcome (hlists.outcome_filter_true hv hdot x)
        .collection).outcome_member rfl hdot hright

/-- Objects in nested arrays, one of them without the name. -/
def nestedItems : Context :=
  .ofValue (.object [("A", .array [
    .array [.object [("B", .text "p")], .object [("C", .boolean true)]],
    .object [("B", .array [.text "q"])],
    .text "r",
    .array [.array [.object [("B", .null)]]]])])

theorem flattening_is_neutral_nested :
    ∃ items flat found,
      outcomeIn ⟨.standard, []⟩ nestedItems "A.Flatten()" .start = .ok (.nodes flat) ∧
      flat.length = 5 ∧
      outcomeIn ⟨.standard, []⟩ nestedItems "A.Select(x => x)" .start = .ok (.nodes flat) ∧
      AreMembersOf "B" items found ∧
      ∀ text ∈ ["A.B", "(A).B", "A.Flatten().B", "A.Flatten().Flatten().B",
          "A.Where(x => true).B"],
        outcomeIn ⟨.standard, []⟩ nestedItems text .start = .ok (.nodes (found.map Prod.snd)) := by
  let dot : Operator := ⟨".", .binary, 100⟩
  obtain ⟨items, v, hvalue, hitems, hlength⟩ : ∃ (items : List Node) (v : Value),
      outcomeIn ⟨.standard, []⟩ nestedItems "A" .start = .ok v ∧ v.Lists items ∧
        (items.map fun n => (n.items?.map List.length).getD 1).sum = 5 := by
    refine ⟨_, _, rfl, .array _, ?_⟩
    decide +kernel
  obtain ⟨hflat, hsum, hproject, hmember⟩ := @flattening_is_neutral ⟨.standard, []⟩
    Vocabulary.standard.extends_self nestedItems dot rfl (.name "A" .start) "A" .start
    (Language.parses_of_gathered rfl) v hvalue items hitems
  obtain ⟨found, hfound, hname⟩ := hmember "B" (.name "B" .start) (.plain .start)
  refine ⟨items, _, found, hflat _ _ (Language.parses_of_gathered rfl), hsum.trans hlength,
    hproject "x" _ _ rfl rfl (Language.parses_of_gathered rfl), hfound, ?_⟩
  intro text htext
  rcases List.mem_cons.1 htext with rfl | htext
  · exact hname _ _ (.inl ⟨rfl, Language.parses_of_gathered rfl⟩)
  rcases List.mem_cons.1 htext with rfl | htext
  · exact hname _ _ (.inr (.inl (Language.parses_of_gathered rfl)))
  rcases List.mem_cons.1 htext with rfl | htext
  · exact hname _ _ (.inr (.inr (.inl (Language.parses_of_gathered rfl))))
  rcases List.mem_cons.1 htext with rfl | htext
  · exact hname _ _ (.inr (.inr (.inr (.inl (Language.parses_of_gathered rfl)))))
  obtain rfl := List.mem_singleton.1 htext
  exact hname _ _ (.inr (.inr (.inr (.inr ⟨"x", Language.parses_of_gathered rfl⟩))))

/-- An empty document below one that is an array of two objects. -/
def belowArray : Context :=
  ⟨.ofParents ⟨"Query", .object (.at (.root "Query")) []⟩
    [⟨⟨"P", .ofJson (.root "P") (.array [.object [("X", .boolean true)],
      .object [("X", .boolean false)]])⟩, []⟩],
    .standard, .midnight ⟨2024, 1, 1⟩, []⟩

/-- The word `parent` comes to an array, but a name behind it is a member of the ancestors, and the
array has no members. Behind the flattened array the same name is searched in the items. -/
theorem name_behind_parent_is_no_search :
    (∃ v items, outcomeIn ⟨.standard, []⟩ belowArray "parent" .start = .ok v ∧
      Value.Lists items v) ∧
    outcomeIn ⟨.standard, []⟩ belowArray "parent.X" .start = .ok .undefined ∧
    ∃ found, found.length = 2 ∧
      outcomeIn ⟨.standard, []⟩ belowArray "parent.Flatten().X" .start = .ok (.nodes found) := by
  refine ⟨⟨_, _, rfl, .array _⟩, rfl, ?_⟩
  refine ⟨_, ?_, rfl⟩
  decide +kernel

end DocQuery
