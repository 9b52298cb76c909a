/-
Values that an evaluation cannot tell apart.

* `Correspondence` — which values of documents correspond, and which paths and positions;
* `Correspondence.toJson_eq`, `Correspondence.search`, … — what a lookup finds in corresponding
  values corresponds;
* `Correspondence.Values`, `Correspondence.Views` — the same for all values of an expression;
* `Correspondence.Outcomes`, `Correspondence.Runs` — faults that differ only in their positions, and
  evaluations that come across corresponding places.

Design notes: a formula looks at the form of the values that it finds and never at their places, so
any relation between values of one form may stand here, also one that only singles out some values
and relates them to themselves. A projection places what it computes where the item is, and this is
the only way in which a place comes into a value again.
-/
import DocQuery.Formula.Evaluate
import DocQuery.Proofs.Formula.Tracing
import Mathlib.Data.List.Forall2

namespace DocQuery

/-- Whether two values of documents have one form: the same scalar, or members of the same names or
items in the same number that are in relation. -/
inductive Node.FormAgrees (R : Node → Node → Prop) : Node → Node → Prop
  | object (p p' : Place) {ms ms' : List (String × Node)} :
    List.Forall₂ (fun m m' => m.1 = m'.1 ∧ R m.2 m'.2) ms ms' →
      FormAgrees R (.object p ms) (.object p' ms')
  | array (p p' : Place) {ns ns' : List Node} :
    List.Forall₂ R ns ns' → FormAgrees R (.array p ns) (.array p' ns')
  | scalar (p p' : Place) (s : Scalar) : FormAgrees R (.scalar p s) (.scalar p' s)

/-- Which values of documents correspond, which paths and which positions of an expression. -/
structure Correspondence where
  node : Node → Node → Prop
  path : Path → Path → Prop
  position : Position → Position → Prop
  form : ∀ {n n'}, node n n' → n.FormAgrees node n'
  path_of_node : ∀ {n n'}, node n n' → path n.path n'.path
  /-- scalars that are computed for corresponding items and placed where these are -/
  computed : ∀ {n n'}, node n n' → ∀ s, node (.scalar (.at n.path) s) (.scalar (.at n'.path) s)

namespace Correspondence

variable {C : Correspondence}

/-! ### Values of documents -/

section Nodes

variable {n n' : Node} {ns ns' : List Node}

theorem sort_eq (h : C.node n n') : n'.sort = n.sort := by
  cases C.form h <;> rfl

theorem scalar?_eq (h : C.node n n') : n'.scalar? = n.scalar? := by
  cases C.form h <;> rfl

theorem isNull_eq (h : C.node n n') : n'.isNull = n.isNull := by
  rw [Node.isNull, Node.isNull, scalar?_eq h]

theorem items (h : C.node n n') :
    List.Forall₂ C.node (n.items?.getD []) (n'.items?.getD []) := by
  cases C.form h with
  | object => exact .nil
  | array _ _ hitems => exact hitems
  | scalar => exact .nil

theorem spread (h : C.node n n') : List.Forall₂ C.node n.spread n'.spread := by
  cases hform : C.form h with
  | object => exact .cons h .nil
  | array _ _ hitems => exact hitems
  | scalar => exact .cons h .nil

theorem lookup {ms ms' : List (String × Node)}
    (h : List.Forall₂ (fun m m' => m.1 = m'.1 ∧ C.node m.2 m'.2) ms ms') (name : String) :
    Option.Rel C.node (ms.lookup name) (ms'.lookup name) := by
  induction h with
  | nil => exact .none
  | @cons m m' ms ms' hm _ ih =>
    obtain ⟨k, v⟩ := m
    obtain ⟨k', v'⟩ := m'
    obtain ⟨rfl, hv⟩ := hm
    rw [List.lookup_cons, List.lookup_cons]
    cases hname : name == k
    · exact ih
    · exact .some hv

theorem member? (h : C.node n n') (name : String) :
    Option.Rel C.node (n.member? name) (n'.member? name) := by
  cases C.form h with
  | object _ _ hmembers => exact lookup hmembers name
  | array => exact .none
  | scalar => exact .none

mutual

/-- Corresponding values are the same JSON. -/
theorem toJson_eq : {n n' : Node} → C.node n n' → n'.toJson = n.toJson
  | .object p ms, n', h => by
    cases C.form h with
    | object _ _ hmembers => rw [Node.toJson, Node.toJson, membersToJson_eq hmembers]
  | .array p ns, n', h => by
    cases C.form h with
    | array _ _ hitems => rw [Node.toJson, Node.toJson, itemsToJson_eq hitems]
  | .scalar p s, n', h => by
    cases C.form h with
    | scalar => rfl

theorem membersToJson_eq : {ms ms' : List (String × Node)} →
    List.Forall₂ (fun m m' => m.1 = m'.1 ∧ C.node m.2 m'.2) ms ms' →
      Node.membersToJson ms' = Node.membersToJson ms
  | [], ms', h => by
    cases h
    rfl
  | (k, v) :: ms, ms', h => by
    cases h with
    | @cons _ m' _ _ hm hms =>
      obtain ⟨k', v'⟩ := m'
      obtain ⟨rfl, hv⟩ := hm
      rw [Node.membersToJson, Node.membersToJson, toJson_eq hv, membersToJson_eq hms]

theorem itemsToJson_eq : {ns ns' : List Node} → List.Forall₂ C.node ns ns' →
    Node.itemsToJson ns' = Node.itemsToJson ns
  | [], ns', h => by
    cases h
    rfl
  | n :: ns, ns', h => by
    cases h with
    | cons hn hns => rw [Node.itemsToJson, Node.itemsToJson, toJson_eq hn, itemsToJson_eq hns]

end

theorem toList {α β : Type} {R : α → β → Prop} {found : Option α} {found' : Option β}
    (h : Option.Rel R found found') : List.Forall₂ R found.toList found'.toList := by
  cases h with
  | none => exact .nil
  | some hn => exact .cons hn .nil

mutual

/-- A search for a name finds corresponding members in corresponding values. -/
theorem search (name : String) : {n n' : Node} → C.node n n' →
    List.Forall₂ C.node (n.search name) (n'.search name)
  | .object p ms, n', h => by
    have hmember := member? h name
    cases C.form h with
    | object _ _ hmembers =>
      rw [Node.search, Node.search]
      exact toList hmember
  | .array p ns, n', h => by
    cases C.form h with
    | array _ _ hitems =>
      rw [Node.search, Node.search]
      exact searchAll name hitems
  | .scalar p s, n', h => by
    cases C.form h with
    | scalar =>
      rw [Node.search, Node.search]
      exact .nil

theorem searchAll (name : String) : {ns ns' : List Node} → List.Forall₂ C.node ns ns' →
    List.Forall₂ C.node (Node.searchAll name ns) (Node.searchAll name ns')
  | [], ns', h => by
    cases h
    rw [Node.searchAll]
    exact .nil
  | n :: ns, ns', h => by
    cases h with
    | cons hn hns =>
      rw [Node.searchAll, Node.searchAll]
      exact List.rel_append (search name hn) (searchAll name hns)

end

mutual

/-- A search comes across corresponding items of corresponding values. -/
theorem surrounded : {n n' : Node} → C.node n n' →
    List.Forall₂ C.node n.surrounded n'.surrounded
  | .object p ms, n', h => by
    cases C.form h with
    | object =>
      rw [Node.surrounded, Node.surrounded]
      exact .nil
  | .array p ns, n', h => by
    cases C.form h with
    | array _ _ hitems =>
      rw [Node.surrounded, Node.surrounded]
      exact surroundedAll hitems
  | .scalar p s, n', h => by
    cases C.form h with
    | scalar =>
      rw [Node.surrounded, Node.surrounded]
      exact .nil

theorem surroundedAll : {ns ns' : List Node} → List.Forall₂ C.node ns ns' →
    List.Forall₂ C.node (Node.surroundedAll ns) (Node.surroundedAll ns')
  | [], ns', h => by
    cases h
    rw [Node.surroundedAll]
    exact .nil
  | n :: ns, ns', h => by
    cases h with
    | cons hn hns =>
      rw [Node.surroundedAll, Node.surroundedAll]
      exact .cons hn (List.rel_append (surrounded hn) (surroundedAll hns))

end

theorem getElem? {α β : Type} {R : α → β → Prop} {as : List α} {bs : List β}
    (h : List.Forall₂ R as bs) (i : Nat) : Option.Rel R as[i]? bs[i]? := by
  induction h generalizing i with
  | nil => exact .none
  | cons hn _ ih =>
    rcases i with _ | i
    · exact .some hn
    · rw [List.getElem?_cons_succ, List.getElem?_cons_succ]
      exact ih i

theorem getLast? {α β : Type} {R : α → β → Prop} {as : List α} {bs : List β}
    (h : List.Forall₂ R as bs) : Option.Rel R as.getLast? bs.getLast? := by
  rw [List.getLast?_eq_getElem?, List.getLast?_eq_getElem?, h.length_eq]
  exact getElem? h _

/-- The items that differ from those before them are the same ones. -/
theorem distinctAfter (seen : List String) (h : List.Forall₂ C.node ns ns') :
    List.Forall₂ C.node (Arrangement.distinctAfter seen ns)
      (Arrangement.distinctAfter seen ns') := by
  induction h generalizing seen with
  | nil => exact .nil
  | cons hn _ ih =>
    rw [Arrangement.distinctAfter, Arrangement.distinctAfter, toJson_eq hn]
    split
    · exact ih seen
    · exact .cons hn (ih _)

end Nodes

end Correspondence

/-! ### Values of expressions -/

/-- Whether a value is of no document. -/
def Value.isComputed : Value → Bool
  | .node _ | .nodes _ => false
  | .undefined | .null | .boolean _ | .number _ | .text _ | .moment _ => true

namespace Correspondence

variable {C : Correspondence}

/-- Whether two values are one computed value, or values of documents that correspond. -/
inductive Values (C : Correspondence) : Value → Value → Prop
  | computed {v : Value} : v.isComputed → Values C v v
  | node {n n' : Node} : C.node n n' → Values C (.node n) (.node n')
  | nodes {ns ns' : List Node} : List.Forall₂ C.node ns ns' → Values C (.nodes ns) (.nodes ns')

namespace Values

variable {v v' : Value}

theorem atom?_eq (h : C.Values v v') : v'.atom? = v.atom? := by
  cases h with
  | computed => rfl
  | node hn => rw [Value.atom?, Value.atom?, scalar?_eq hn]
  | nodes => rfl

theorem sort_eq (h : C.Values v v') : v'.sort = v.sort := by
  cases h with
  | computed => rfl
  | node hn => exact Correspondence.sort_eq hn
  | nodes => rfl

theorem isUndefined_eq (h : C.Values v v') : v'.isUndefined = v.isUndefined := by
  cases h <;> rfl

theorem eq_undefined_iff (h : C.Values v v') : v' = .undefined ↔ v = .undefined := by
  cases h with
  | computed => rfl
  | node => simp
  | nodes => simp

theorem isNull_eq (h : C.Values v v') : v'.isNull = v.isNull := by
  cases h with
  | computed => rfl
  | node hn => exact Correspondence.isNull_eq hn
  | nodes => rfl

theorem isMissing_eq (h : C.Values v v') : v'.isMissing = v.isMissing := by
  rw [Value.isMissing, Value.isMissing, h.isUndefined_eq, h.isNull_eq]

theorem structure?_eq (h : C.Values v v') : v'.structure? = v.structure? := by
  cases h with
  | computed => rfl
  | node hn => rw [Value.structure?, Value.structure?, toJson_eq hn]
  | nodes hns => rw [Value.structure?, Value.structure?, itemsToJson_eq hns]

theorem kind_eq (h : C.Values v v') : v'.kind = v.kind := by
  cases h <;> rfl

theorem ofNode? {found found' : Option Node} (h : Option.Rel C.node found found') :
    C.Values (.ofNode? found) (.ofNode? found') := by
  cases h with
  | none => exact .computed rfl
  | some hn => exact .node hn

/-- What a lambda gives for corresponding items contributes the same to a projection. -/
theorem contribution (h : C.Values v v') {n n' : Node} (hn : C.node n n') :
    List.Forall₂ C.node (v.contribution n.path) (v'.contribution n'.path) := by
  cases h with
  | @computed v hv =>
    cases v with
    | undefined => exact .nil
    | null | boolean | number | text | moment => exact .cons (C.computed hn _) .nil
    | node | nodes => cases hv
  | node hm => exact spread hm
  | nodes hns => exact hns

end Values

/-- Whether two lookups have reached values that correspond. -/
inductive Views (C : Correspondence) : View → View → Prop
  | single {found found' : Option Node} :
    Option.Rel C.node found found' → Views C (.single found) (.single found')
  | many {ns ns' : List Node} : List.Forall₂ C.node ns ns' → Views C (.many ns) (.many ns')

namespace Views

variable {view view' : View}

theorem nodes (h : C.Views view view') : List.Forall₂ C.node view.nodes view'.nodes := by
  cases h with
  | single hfound => exact toList hfound
  | many hns => exact hns

theorem toValue (h : C.Views view view') : C.Values view.toValue view'.toValue := by
  cases h with
  | single hfound =>
    cases hfound with
    | none => exact .computed rfl
    | some hn => exact .node hn
  | many hns => exact .nodes hns

theorem items (h : C.Views view view') : List.Forall₂ C.node view.items view'.items := by
  cases h with
  | single hfound =>
    cases hfound with
    | none => exact .nil
    | some hn => exact Correspondence.items hn
  | many hns => exact hns

theorem member (h : C.Views view view') (name : String) :
    C.Views (view.member name) (view'.member name) := by
  cases h with
  | single hfound =>
    cases hfound with
    | none => exact .single .none
    | @some n n' hn =>
      have hmember := member? hn name
      cases C.form hn with
      | object => exact .single hmember
      | array _ _ hitems => exact .many (searchAll name hitems)
      | scalar => exact .single hmember
  | many hns => exact .many (searchAll name hns)

theorem item (h : C.Views view view') (index : Nat) :
    C.Views (view.item index) (view'.item index) := by
  cases h with
  | single hfound =>
    cases hfound with
    | none => exact .single .none
    | @some n n' hn =>
      cases C.form hn with
      | object => exact .single .none
      | array _ _ hitems => exact .single (getElem? hitems index)
      | scalar => exact .single .none
  | many hns => exact .single (getElem? hns index)

theorem searched (h : C.Views view view') :
    List.Forall₂ C.node view.searched view'.searched :=
  List.rel_flatMap h.nodes fun _ _ hn => surrounded hn

theorem counted (h : C.Views view view') (index : Option Nat) :
    List.Forall₂ C.node (view.counted index) (view'.counted index) := by
  refine List.rel_append h.nodes ?_
  cases index with
  | none => exact .nil
  | some i => exact List.forall₂_take (i + 1) h.items

/-- A lookup goes on from corresponding values alike, if scalars that are placed at the two roots
correspond. -/
theorem ofValue {v v' : Value} (h : C.Values v v') {root root' : Path}
    (hroot : ∀ s, C.node (.scalar (.at root) s) (.scalar (.at root') s)) :
    C.Views (.ofValue root v) (.ofValue root' v') := by
  cases h with
  | @computed v hv =>
    cases v with
    | undefined | null => exact .single .none
    | boolean | number | text | moment => exact .single (.some (hroot _))
    | node | nodes => cases hv
  | node hn => exact .single (.some hn)
  | nodes hns => exact .many hns

end Views

/-- Whether a selector makes corresponding views of corresponding items. -/
def Keeps (C : Correspondence) (a : Arrangement) : Prop :=
  ∀ ns ns', List.Forall₂ C.node ns ns' → C.Views (a.select ns) (a.select ns')

theorem keeps_of_standard {a : Arrangement} (h : ∀ name select, a ≠ .custom name select) :
    C.Keeps a := by
  intro ns ns' hns
  cases a with
  | first =>
    rw [Arrangement.select, Arrangement.select, List.head?_eq_getElem?, List.head?_eq_getElem?]
    exact .single (getElem? hns 0)
  | last => exact .single (getLast? hns)
  | flatten => exact .many (List.rel_flatMap hns fun _ _ hn => spread hn)
  | reverse => exact .many (List.rel_reverse hns)
  | distinct => exact .many (distinctAfter [] hns)
  | custom name select => exact absurd rfl (h name select)

/-! ### Evaluations -/

/-- Whether two faults differ only in their positions, which correspond. -/
inductive Faults (C : Correspondence) : Fault → Fault → Prop
  | malformed (problem : SyntaxProblem) {p p' : Position} :
    C.position p p' → Faults C (.malformed problem p) (.malformed problem p')
  | failed (problem : EvaluationProblem) {p p' : Position} :
    C.position p p' → Faults C (.failed problem p) (.failed problem p')
  | broken (invariant : BrokenInvariant) : Faults C (.broken invariant) (.broken invariant)

theorem Faults.message_eq {fault fault' : Fault} (h : C.Faults fault fault') :
    fault'.message = fault.message := by
  cases h <;> rfl

/-- Whether two outcomes are faults that correspond, or results that are in relation. -/
inductive Outcomes (C : Correspondence) {α β : Type} (R : α → β → Prop) :
    Except Fault α → Except Fault β → Prop
  | ok {a : α} {b : β} : R a b → Outcomes C R (.ok a) (.ok b)
  | error {fault fault' : Fault} : C.Faults fault fault' →
    Outcomes C R (.error fault) (.error fault')

namespace Outcomes

variable {α β γ δ : Type} {R : α → β → Prop} {S : γ → δ → Prop} {x : Except Fault α}
  {y : Except Fault β}

theorem bind {f : α → Except Fault γ} {g : β → Except Fault δ} (h : C.Outcomes R x y)
    (hf : ∀ a b, R a b → C.Outcomes S (f a) (g b)) : C.Outcomes S (x >>= f) (y >>= g) := by
  cases h with
  | ok hab => exact hf _ _ hab
  | error hfault => exact .error hfault

theorem map {f : α → γ} {g : β → δ} (h : C.Outcomes R x y) (hf : ∀ a b, R a b → S (f a) (g b)) :
    C.Outcomes S (x.map f) (y.map g) := by
  cases h with
  | ok hab => exact .ok (hf _ _ hab)
  | error hfault => exact .error hfault

/-- After results that are the same, the rest goes on with the same. -/
theorem bind_eq {x y : Except Fault α} {f : α → Except Fault γ} {g : α → Except Fault δ}
    (h : C.Outcomes Eq x y) (hf : ∀ a, C.Outcomes S (f a) (g a)) :
    C.Outcomes S (x >>= f) (y >>= g) :=
  h.bind fun a _ hab => hab ▸ hf a

end Outcomes

/-- Whether two sightings are alike and of places that correspond. -/
structure Sees (C : Correspondence) (s s' : Sighting) : Prop where
  path : C.path s.path s'.path
  isWhole_eq : s'.isWhole = s.isWhole
  isNoticed_eq : s'.isNoticed = s.isNoticed

/-- Whether two evaluations have outcomes that correspond and come across corresponding places. -/
structure Runs (C : Correspondence) {α β : Type} (R : α → β → Prop) (x : Traced α)
    (y : Traced β) : Prop where
  outcome : C.Outcomes R x.outcome y.outcome
  sightings : List.Forall₂ C.Sees x.sightings y.sightings

namespace Runs

variable {α β γ δ : Type} {R : α → β → Prop} {S : γ → δ → Prop}

theorem ofExcept {o : Except Fault α} {o' : Except Fault β} (h : C.Outcomes R o o') :
    C.Runs R (.ofExcept o) (.ofExcept o') :=
  ⟨h, .nil⟩

theorem pure {a : α} {b : β} (h : R a b) :
    C.Runs R (Pure.pure a : Traced α) (Pure.pure b : Traced β) :=
  ofExcept (.ok h)

theorem bind {x : Traced α} {y : Traced β} {f : α → Traced γ} {g : β → Traced δ}
    (h : C.Runs R x y) (hf : ∀ a b, R a b → C.Runs S (f a) (g b)) :
    C.Runs S (x >>= f) (y >>= g) := by
  obtain ⟨x, seen⟩ := x
  obtain ⟨y, seen'⟩ := y
  obtain ⟨houtcome, hsightings⟩ := h
  cases houtcome with
  | ok hab =>
    rw [Traced.bind_ok rfl, Traced.bind_ok rfl]
    obtain ⟨hnext, hmore⟩ := hf _ _ hab
    exact ⟨hnext, List.rel_append hsightings hmore⟩
  | error hfault =>
    rw [Traced.bind_error rfl, Traced.bind_error rfl]
    exact ⟨.error hfault, hsightings⟩

/-- After results that are the same, the rest goes on with the same. -/
theorem bind_eq {x y : Traced α} {f : α → Traced γ} {g : α → Traced δ} (h : C.Runs Eq x y)
    (hf : ∀ a, C.Runs S (f a) (g a)) : C.Runs S (x >>= f) (y >>= g) :=
  h.bind fun a _ hab => hab ▸ hf a

theorem see {seen seen' : List Sighting} {x : Traced γ} {y : Traced δ}
    (hseen : List.Forall₂ C.Sees seen seen') (h : C.Runs S x y) :
    C.Runs S (Traced.see seen >>= fun _ => x) (Traced.see seen' >>= fun _ => y) :=
  bind (R := Eq) ⟨.ok rfl, hseen⟩ fun _ _ _ => h

theorem ite {b : Bool} {x x' : Traced γ} {y y' : Traced δ} (h : C.Runs S x y)
    (h' : C.Runs S x' y') : C.Runs S (if b then x else x') (if b then y else y') := by
  cases b
  · exact h'
  · exact h

end Runs

theorem sightingsOf {ns ns' : List Node} (h : List.Forall₂ C.node ns ns') (isWhole : Bool) :
    List.Forall₂ C.Sees (sightingsOf ns isWhole) (sightingsOf ns' isWhole) :=
  List.rel_map (fun _ _ hn => ⟨C.path_of_node hn, rfl, rfl⟩) h

theorem unnoticed {ns ns' : List Node} (h : List.Forall₂ (fun n n' => C.path n.path n'.path) ns ns')
    (isTracked isWhole : Bool) :
    List.Forall₂ C.Sees (unnoticed isTracked ns isWhole) (unnoticed isTracked ns' isWhole) := by
  cases isTracked
  · exact .nil
  · exact List.rel_map (fun _ _ hn => ⟨hn, rfl, rfl⟩) h

theorem unnoticed_of_nodes {ns ns' : List Node} (h : List.Forall₂ C.node ns ns')
    (isTracked isWhole : Bool) :
    List.Forall₂ C.Sees (DocQuery.unnoticed isTracked ns isWhole)
      (DocQuery.unnoticed isTracked ns' isWhole) :=
  unnoticed (h.imp fun _ _ hn => C.path_of_node hn) isTracked isWhole

theorem surveyed {ns ns' : List Node} (h : List.Forall₂ C.node ns ns') (isTracked : Bool)
    (a : Arrangement) :
    List.Forall₂ C.Sees (a.surveyed isTracked ns) (a.surveyed isTracked ns') := by
  cases a with
  | first => exact unnoticed_of_nodes (List.forall₂_take 1 h) isTracked false
  | last | flatten | reverse => exact unnoticed_of_nodes h isTracked false
  | distinct | custom => exact unnoticed_of_nodes h isTracked true

theorem Values.sightings {v v' : Value} (h : C.Values v v') :
    List.Forall₂ C.Sees v.sightings v'.sightings := by
  cases h with
  | @computed v hv =>
    cases v with
    | undefined | null | boolean | number | text | moment => exact .nil
    | node | nodes => cases hv
  | node hn => exact sightingsOf (.cons hn .nil) true
  | nodes hns => exact sightingsOf hns true

end Correspondence

end DocQuery
