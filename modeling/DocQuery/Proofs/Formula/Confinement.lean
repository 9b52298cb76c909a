/-
Lookups that are confined by where they begin.

* `Document.Recasts` — two documents of one name that agree, but for a rearrangement, as far as
  lookups from the allowed origins read them;
* `Expr.reach_map` — an expression all of whose lookups begin at allowed origins reaches the same in
  both, rearranged;
* `lookups_confined` — a text whose lookups begin at `this` has the same value whatever is
  inherited, and one whose lookups begin at `parent` whatever the document itself holds.

Design notes: the equation is about the whole evaluation, with its sightings and its faults, so it
can be used behind every step. A qualifier is only reached if it is an origin, which is why a chain
may go on from it in both documents.
-/
import DocQuery.Compilation
import DocQuery.Proofs.Directive.Noticing
import DocQuery.Proofs.Formula.Origins
import DocQuery.Proofs.Formula.Predicates
import DocQuery.Proofs.Formula.Rearranging
import DocQuery.Proofs.Formula.Scoping

namespace DocQuery

/-- A world with another document. -/
def World.on (w : World) (d : Document) : World := { w with document := d }

variable {σ : Rearrangement} {w : World} {d' : Document}

@[simp] theorem World.on_vocabulary : (w.on d').vocabulary = w.vocabulary := rfl

@[simp] theorem World.on_options : (w.on d').options = w.options := rfl

/-! ### Operations -/

namespace Traced

variable {α β : Type}

theorem ofExcept_map (f : α → β) (o : Except Fault α) :
    ofExcept (o.map f) = f <$> ofExcept o := by
  rcases o with fault | a <;> rfl

/-- What is computed is left as it is. -/
theorem ofExcept_computed {o : Except Fault Value} (h : ∀ v, o = .ok v → v.isComputed) :
    Value.map σ <$> ofExcept o = ofExcept o := by
  rw [← ofExcept_map, σ.map_of_computed h]

end Traced

open Traced (ofExcept_map ofExcept_computed)

theorem OperandMeaning.interpret_map (p : Position) (a : Sense) (meaning : OperandMeaning) :
    meaning.interpret (w.on d') p (a.map σ) = Value.map σ <$> meaning.interpret w p a := by
  cases meaning with
  | apply f =>
    simp only [interpret, σ.operand, bind_map_left, σ.unary, map_bind]
    exact bind_congr fun x => (ofExcept_computed fun v hv => f.isComputed_of_run hv).symm
  | assert =>
    simp only [interpret, Sense.map, bind_map_left, σ.asserted, map_bind, ofExcept_map]

theorem BinaryMeaning.interpret_map (p : Position) (a b : Sense) (meaning : BinaryMeaning)
    (hcustom : ∀ o, meaning = .custom o → ∀ vs, (o.compute vs).map σ = o.compute vs) :
    meaning.interpret (w.on d') p (a.map σ) (b.map σ) =
      Value.map σ <$> meaning.interpret w p a b := by
  cases meaning with
  | operation o =>
    simp only [interpret, σ.operand, bind_map_left, σ.binary, map_bind]
    exact bind_congr fun x => bind_congr fun y =>
      (ofExcept_computed fun v hv => o.isComputed_of_run hv).symm
  | both =>
    simp only [interpret, Sense.map, bind_map_left, σ.toBoolean, map_bind]
    refine bind_congr fun v => bind_congr fun holds => ?_
    cases holds with
    | true => simp only [if_true, map_bind, map_pure]; rfl
    | false => rfl
  | either =>
    simp only [interpret, Sense.map, bind_map_left, σ.toBoolean, map_bind]
    refine bind_congr fun v => bind_congr fun holds => ?_
    cases holds with
    | true => rfl
    | false => simp only [Bool.false_eq_true, if_false, map_bind, map_pure]; rfl
  | fallback =>
    simp only [interpret, Sense.map, bind_map_left, σ.isMissing, σ.convert?, World.on_options,
      map_bind]
    refine bind_congr fun v => ?_
    split
    · rfl
    · split
      · rfl
      · rename_i type _
        rcases hconverted : v.convert? w.options type with _ | converted
        · rfl
        · have hcomputed := Value.isComputed_of_convert? hconverted
          show pure converted = Value.map σ <$> pure converted
          rw [map_pure, Value.map_of_isComputed hcomputed]
  | custom o =>
    have hsenses := σ.converted [a, b] w.options o.operandType
    simp only [List.map_cons, List.map_nil] at hsenses
    simp only [interpret, map_bind, map_pure, hcustom o rfl]
    exact congrArg (· >>= _) hsenses

theorem FunctionMeaning.interpret_map (p : Position) (as : List Sense) (meaning : FunctionMeaning)
    (hoperation : ∀ o, meaning = .operation o → ∀ vs, (o.compute vs).map σ = o.compute vs) :
    meaning.interpret (w.on d') p (as.map (Sense.map σ)) =
      Value.map σ <$> meaning.interpret w p as := by
  cases meaning with
  | aggregate a => rfl
  | unary f =>
    rcases as with _ | ⟨a, _ | ⟨b, as⟩⟩
    · rfl
    · simp only [List.map_cons, List.map_nil, interpret, σ.operand, bind_map_left, σ.unary,
        map_bind]
      exact bind_congr fun x => (ofExcept_computed fun v hv => f.isComputed_of_run hv).symm
    · rfl
  | test t =>
    rcases as with _ | ⟨a, _ | ⟨b, _ | ⟨c, as⟩⟩⟩
    · rfl
    · rfl
    · simp only [List.map_cons, List.map_nil, interpret, Sense.map, bind_map_left, σ.toText,
        map_bind, map_pure]
      rfl
    · rfl
  | concatenate =>
    rcases as with _ | ⟨a, _ | ⟨b, as⟩⟩
    · rfl
    · rfl
    · have htexts := σ.texts (a :: b :: as)
      simp only [List.map_cons] at htexts
      simp only [List.map_cons, interpret, htexts, map_bind, map_pure]
      rfl
  | choose =>
    rcases as with _ | ⟨a, _ | ⟨b, _ | ⟨c, _ | ⟨d, as⟩⟩⟩⟩
    · rfl
    · rfl
    · rfl
    · simp only [List.map_cons, List.map_nil, interpret, Sense.map, bind_map_left, σ.toBoolean,
        map_bind]
      refine bind_congr fun v => bind_congr fun holds => ?_
      cases holds <;> rfl
    · rfl
  | now => cases as <;> rfl
  | operation o =>
    simp only [interpret, map_bind, map_pure, hoperation o rfl, σ.converted]
    rfl

theorem Aggregate.map_runWith (a : Aggregate) (valueOf : Node × Nat → Traced Operand)
    (items : List Node) : Value.map σ <$> a.runWith valueOf items = a.runWith valueOf items := by
  simp only [runWith, map_bind, map_pure]
  exact bind_congr fun tally =>
    congrArg pure (Value.map_of_isComputed (Correspondence.result tally) σ)

theorem Aggregate.map_run (a : Aggregate) (p : Position) (items : List Node) :
    Value.map σ <$> a.run p items = a.run p items := by
  cases a with
  | count | any => rfl
  | all | sum | average | min | max => exact map_runWith _ _ items

theorem Aggregate.interpret_map (a : Aggregate) (collection : Sense)
    {valueOf valueOf' : Option (Node × Nat → Traced Operand)}
    (h : Option.Rel (fun f f' => ∀ item, f' (itemMap σ item) = Operand.map σ <$> f item)
      valueOf valueOf') :
    a.interpret (collection.map σ) valueOf' = Value.map σ <$> a.interpret collection valueOf := by
  simp only [interpret, Sense.map, bind_map_left, σ.itemsOf, ofExcept_map, map_bind]
  refine bind_congr fun v => bind_congr fun items => ?_
  cases h with
  | none => exact (σ.run a _ items).trans (a.map_run _ items).symm
  | some hvalue => exact (σ.runWith hvalue a items).trans (a.map_runWith _ items).symm

/-! ### Steps -/

/-- Whether a step in the changed documents leads to what a step leads to, changed alike. -/
def Walk.Maps (σ : Rearrangement) (walk walk' : Walk) : Prop :=
  ∀ isTracked view, walk' isTracked (view.map σ) = View.map σ <$> walk isTracked view

namespace Walk

variable {as : List Sense}

theorem member_maps (name : String) : (member name).Maps σ (member name) := by
  intro isTracked view
  simp only [member, σ.searched, σ.unnoticed, σ.member, map_bind, map_pure]

theorem index_maps (as : List Sense) : (index as).Maps σ (index (as.map (Sense.map σ))) :=
  fun isTracked view => σ.indexed as isTracked view

theorem positions_maps (as : List Sense) (p : Position) :
    (positions as p).Maps σ (positions (as.map (Sense.map σ)) p) := by
  intro isTracked view
  simp only [positions, σ.toValue, σ.itemsOf, ofExcept_map, bind_map_left, map_bind]
  refine bind_congr fun items => ?_
  have hlocated := σ.located as isTracked items none
  simp only [Option.map_none] at hlocated
  simp only [hlocated, bind_map_left, map_pure]
  rfl

theorem arrange_maps {a : Arrangement}
    (ha : ∀ items, a.select (items.map σ) = (a.select items).map σ) (p : Position) :
    (arrange a p).Maps σ (arrange a p) := by
  intro isTracked view
  simp only [arrange, σ.toValue, σ.itemsOf, ofExcept_map, bind_map_left, σ.surveyed, ha, map_bind,
    map_pure]

theorem through_maps (selector : LambdaSelector) {valueOf valueOf' : Node × Nat → Traced Operand}
    (h : ∀ item, valueOf' (itemMap σ item) = Operand.map σ <$> valueOf item) (p : Position) :
    (through selector valueOf p).Maps σ (through selector valueOf' p) := by
  intro isTracked view
  simp only [through, σ.toValue, σ.itemsOf, ofExcept_map, bind_map_left, σ.unnoticed,
    σ.through h, map_bind]

end Walk

/-! ### Documents -/

/-- Whether two documents of one name agree, but for a rearrangement, as far as lookups from the
allowed origins read them. -/
structure Document.Recasts (σ : Rearrangement) (allowed : LookupOrigin → Prop) (d d' : Document) :
    Prop where
  id : d'.id = d.id
  root : ∀ o, allowed o → o.readsRoot → d'.root = σ d.root
  ancestors : ∀ o, allowed o → o.readsAncestors →
    d'.ancestors.map (·.root) = d.ancestors.map fun page => σ page.root

/-- Where a name is found does not depend on how members are arranged. -/
theorem Page.firstMember?_map (name : String) {pages pages' : List Page}
    (h : pages'.map (·.root) = pages.map fun page => σ page.root) :
    firstMember? name pages' = (firstMember? name pages).map σ := by
  have hroots (pages : List Page) :
      firstMember? name pages = (pages.map (·.root)).findSome? (·.member? name) := by
    rw [firstMember?, List.findSome?_map]
    rfl
  rw [hroots, h, hroots]
  clear h hroots
  induction pages with
  | nil => rfl
  | cons page pages ih =>
    rw [List.map_cons, List.map_cons, List.findSome?_cons, List.findSome?_cons, σ.member?]
    cases page.root.member? name with
    | none => exact ih
    | some n => rfl

/-- A name that is searched in pages which agree has the value that it had, changed. -/
theorem World.property_map (name : String) (scope : Scope)
    (hroot : scope ≠ .inherited → d'.root = σ w.document.root)
    (hpages : (scope.pages d').map (·.root) =
      (scope.pages w.document).map fun page => σ page.root) :
    (w.on d').property name scope = Value.map σ <$> w.property name scope := by
  have hsearched : (if scope = Scope.inherited then [] else [d'.root]) =
      (if scope = Scope.inherited then [] else [w.document.root]).map σ := by
    split
    · rfl
    · rename_i hscope
      rw [hroot hscope]
      rfl
  show (do
    Traced.see (unnoticed true (if scope = Scope.inherited then [] else [d'.root]) false)
    pure (Value.ofNode? (Page.firstMember? name (scope.pages d')))) = _
  rw [hsearched, σ.unnoticed, Page.firstMember?_map name hpages, σ.ofNode?]
  simp only [property, map_bind, map_pure]

namespace Document.Recasts

variable {allowed : LookupOrigin → Prop} (h : w.document.Recasts σ allowed d')

include h

theorem property {n : String} (hn : allowed (.property n)) (name : String) :
    (w.on d').property name .all = Value.map σ <$> w.property name .all := by
  have hroot := h.root _ hn rfl
  refine World.property_map name .all (fun _ => hroot) ?_
  rw [Scope.pages, Scope.pages, pages, pages, List.map_cons, List.map_cons, hroot,
    h.ancestors _ hn rfl]

theorem qualified {q : Qualifier} (hq : allowed (.qualifier q)) (name : String) :
    (w.on d').property name q.scope = Value.map σ <$> w.property name q.scope := by
  cases q with
  | this =>
    have hroot := h.root _ hq rfl
    exact World.property_map name .own (fun _ => hroot) (congrArg (· :: []) hroot)
  | parent => exact World.property_map name .inherited (absurd rfl) (h.ancestors _ hq rfl)

theorem rootOf {q : Qualifier} (hq : allowed (.qualifier q)) :
    (w.on d').root q = (w.root q).map σ := by
  cases q with
  | this => exact congrArg Value.node (h.root _ hq rfl)
  | parent =>
    have hhead := congrArg List.head? (h.ancestors _ hq rfl)
    rw [List.head?_map, List.head?_map] at hhead
    show Value.ofNode? (d'.ancestors.head?.map (·.root)) = _
    rw [hhead, World.root, ← σ.ofNode?, Option.map_map]
    rfl

theorem step {r : Reached} (hr : r.IsFrom allowed) {walk walk' : Walk} (hwalk : walk.Maps σ walk') :
    (r.map σ).step (w.on d') walk' = Reached.map σ <$> r.step w walk := by
  have hgo (v : Value) (isTracked : Bool) : (do
      let view := View.ofValue (.root d'.id) (v.map σ)
      Traced.see (if isTracked then sightingsOf view.nodes false else [])
      let next ← walk' isTracked view
      pure (Reached.value next.toValue isTracked)) = Reached.map σ <$> (do
      let view := View.ofValue (.root w.document.id) v
      Traced.see (if isTracked then sightingsOf view.nodes false else [])
      let next ← walk isTracked view
      pure (Reached.value next.toValue isTracked)) := by
    simp only [h.id, σ.ofValue, σ.nodes, σ.sightingsOf, hwalk isTracked, bind_map_left, σ.toValue,
      map_bind, map_pure]
    rfl
  cases r with
  | qualifier q =>
    show (do
      let view := View.ofValue (.root d'.id) ((w.on d').root q)
      Traced.see (if true then sightingsOf view.nodes false else [])
      let next ← walk' true view
      pure (Reached.value next.toValue true)) = _
    rw [h.rootOf hr]
    exact hgo (w.root q) true
  | value v isTracked => exact hgo v isTracked

theorem memberOf {r : Reached} (hr : r.IsFrom allowed) (name : String) :
    (r.map σ).member (w.on d') name = Reached.map σ <$> r.member w name := by
  cases r with
  | qualifier q =>
    show (do
      let v ← (w.on d').property name q.scope
      pure (Reached.value v true)) = _
    simp only [h.qualified hr, bind_map_left, Reached.member, map_bind, map_pure]
    rfl
  | value v isTracked => exact h.step (r := .value v isTracked) trivial (Walk.member_maps name)

theorem finish {r : Reached} (hr : r.IsFrom allowed) :
    (r.map σ).finish (w.on d') = Value.map σ <$> r.finish w := by
  cases r with
  | qualifier q =>
    show (do
      Traced.see ((w.on d').root q).sightings
      pure ((w.on d').root q)) = _
    rw [h.rootOf hr, σ.sightings]
    simp only [Reached.finish, map_bind, map_pure]
  | value v isTracked =>
    simp only [Reached.map, Reached.finish, σ.sightings, map_bind, map_pure]

end Document.Recasts

/-! ### Arguments -/

/-- Whether an argument is another one with the values of documents in it changed. -/
structure Argument.Maps (σ : Rearrangement) (a a' : Argument) : Prop where
  sense : a'.sense = a.sense.map σ
  valueFor : ∀ item, a'.valueFor (itemMap σ item) = Operand.map σ <$> a.valueFor item

section Arguments

variable {as as' : List Argument}

theorem Argument.senses_eq (h : List.Forall₂ (Argument.Maps σ) as as') :
    as'.map (·.sense) = (as.map (·.sense)).map (Sense.map σ) := by
  induction h with
  | nil => rfl
  | cons ha _ ih => rw [List.map_cons, List.map_cons, List.map_cons, ha.sense, ih]

theorem World.call_map (hv : w.vocabulary.Respects σ) (n : String) (p : Position)
    (h : List.Forall₂ (Argument.Maps σ) as as') :
    (w.on d').call n p as' = Value.map σ <$> w.call n p as := by
  rw [call, call, on_vocabulary]
  rcases hmeaning : w.vocabulary.functions.lookup n with _ | meaning
  · rfl
  · cases meaning with
    | aggregate a =>
      rcases h with _ | ⟨hcollection, _ | ⟨hlambda, _ | _⟩⟩
      · rfl
      · simp only [hcollection.sense]
        exact a.interpret_map _ .none
      · simp only [hcollection.sense]
        exact a.interpret_map _ (.some hlambda.valueFor)
      · rfl
    | operation o =>
      simp only [Argument.senses_eq h]
      refine FunctionMeaning.interpret_map p _ _ fun o' ho => ?_
      obtain rfl := FunctionMeaning.operation.inj ho
      exact hv.function n _ hmeaning
    | unary | test | concatenate | choose | now =>
      simp only [Argument.senses_eq h]
      exact FunctionMeaning.interpret_map p _ _ fun o ho => by cases ho

theorem Document.Recasts.select {allowed : LookupOrigin → Prop}
    (h : w.document.Recasts σ allowed d') (hv : w.vocabulary.Respects σ) {r : Reached}
    (hr : r.IsFrom allowed) (n : String) (p : Position)
    (has : List.Forall₂ (Argument.Maps σ) as as') :
    (r.map σ).select (w.on d') n p as' = Reached.map σ <$> r.select w n p as := by
  have hthrough (selector : LambdaSelector) {a a' : Argument} (ha : Argument.Maps σ a a') :=
    h.step hr (Walk.through_maps selector ha.valueFor p)
  rw [Reached.select, Reached.select, World.on_vocabulary]
  rcases hmeaning : w.vocabulary.selectors.lookup n with _ | meaning
  · rfl
  · cases meaning with
    | lambda selector =>
      rcases has with _ | ⟨ha, _ | _⟩
      · rfl
      · exact hthrough selector ha
      · rfl
    | optionalLambda selector a =>
      rcases has with _ | ⟨ha, _ | _⟩
      · exact h.step hr (Walk.arrange_maps (hv.optional n selector a hmeaning) p)
      · exact hthrough selector ha
      · rfl
    | arrangement a =>
      cases has with
      | nil => exact h.step hr (Walk.arrange_maps (hv.arrangement n a hmeaning) p)
      | cons => rfl
    | positions =>
      have hpositions := h.step hr (Walk.positions_maps (as.map (·.sense)) p)
      rw [← Argument.senses_eq has] at hpositions
      cases has with
      | nil => rfl
      | cons => exact hpositions
    | custom select =>
      cases has with
      | nil =>
        exact h.step hr (Walk.arrange_maps (a := .custom n select) (hv.custom n select hmeaning) p)
      | cons => rfl

end Arguments

/-! ### Expressions -/

/-- An environment with the items changed that names stand for. -/
def Environment.map (f : Node → Node) (ρ : Environment) : Environment :=
  fun name => (ρ name).map f

theorem Environment.map_outermost (f : Node → Node) : outermost.map f = outermost := rfl

theorem Environment.map_enter (f : Node → Node) (ρ : Environment) (parameters : List String)
    (item : Node × Nat) :
    (ρ.map f).enter parameters (itemMap f item) = (ρ.enter parameters item).map f := by
  funext name
  unfold Environment.map Environment.enter
  rcases parameters.idxOf? name with _ | _ | i <;> rfl

section Expressions

variable {allowed : LookupOrigin → Prop} {ρ : Environment} {parameters : List String}

theorem Document.Recasts.resolve (h : w.document.Recasts σ allowed d') (hρ : ρ.Binds parameters)
    {n : String} (hn : allowed (.ofName parameters n)) :
    (w.on d').resolve (ρ.map σ n) = Value.map σ <$> w.resolve (ρ n) := by
  rw [Environment.map]
  rcases hρ.cases n with hparameter | ⟨hproperty, horigin⟩
  · cases hreferent : ρ n with
    | property m => exact absurd hreferent (hparameter m)
    | item m => rfl
    | index i => rfl
  · rw [hproperty]
    exact h.property (horigin ▸ hn) n

theorem Document.Recasts.begin (h : w.document.Recasts σ allowed d')
    (hv : w.vocabulary.Respects σ) (hρ : ρ.Binds parameters) {n : String}
    (hn : allowed (w.vocabulary.originOf parameters n)) :
    (w.on d').begin (ρ.map σ) n = Reached.map σ <$> w.begin ρ n := by
  rw [World.begin, World.begin, World.on_vocabulary]
  rw [Vocabulary.originOf] at hn
  rcases hq : Qualifier.ofName? n with _ | q
  · simp only [hq] at hn ⊢
    rcases hconstant : w.vocabulary.constants.lookup n with _ | v
    · have hname : allowed (.ofName parameters n) := by simpa [hconstant] using hn
      simp only [h.resolve hρ hname, bind_map_left, map_bind, map_pure]
      rfl
    · show pure (Reached.value v false) = pure (Reached.value (v.map σ) false)
      rw [hv.constant n v hconstant]
  · rfl

/-- The sense of an expression that begins its own lookups follows what the expression reaches. -/
theorem Document.Recasts.sense (h : w.document.Recasts σ allowed d') {e : Expr}
    (horigins : ∀ o ∈ e.origins w.vocabulary parameters true, allowed o)
    (hreach : e.reach (w.on d') (ρ.map σ) none = Reached.map σ <$> e.reach w ρ none) :
    e.sense (w.on d') (e.reach (w.on d') (ρ.map σ) none) =
      (e.sense w (e.reach w ρ none)).map σ := by
  have hvalue : (Reached.map σ <$> e.reach w ρ none) >>= Reached.finish (w.on d') =
      Value.map σ <$> (e.reach w ρ none >>= Reached.finish w) := by
    rw [bind_map_left, map_bind]
    exact Traced.bind_congr_ok fun r hr => h.finish (e.reach_isFrom horigins hr)
  rw [hreach, Expr.sense, hvalue]
  rfl

theorem Traced.asReached_map (x : Traced Value) :
    (Value.map σ <$> x).asReached = Reached.map σ <$> x.asReached := by
  simp only [asReached, bind_map_left, map_bind, map_pure]
  rfl

mutual

/-- An expression all of whose lookups begin at allowed origins reaches the same in documents that
agree as far as these read them. -/
theorem Expr.reach_map (h : w.document.Recasts σ allowed d') (hv : w.vocabulary.Respects σ)
    {ρ : Environment} {parameters : List String} (hρ : ρ.Binds parameters)
    (before : Option Reached) (hbefore : ∀ r ∈ before, r.IsFrom allowed) (e : Expr)
    (horigins : ∀ o ∈ e.origins w.vocabulary parameters before.isNone, allowed o) :
    e.reach (w.on d') (ρ.map σ) (before.map (Reached.map σ)) =
      Reached.map σ <$> e.reach w ρ before := by
  match e with
  | .name n _ =>
    cases before with
    | none => exact h.begin hv hρ (horigins _ (by simp [Expr.origins]))
    | some r => exact h.memberOf (hbefore r rfl) n
  | .text content p =>
    cases before with
    | none =>
      have htext : (w.on d').text content p = Value.map σ <$> w.text content p := by
        rw [World.text, World.text, World.on_vocabulary]
        rcases htext : w.vocabulary.texts.lookup content with _ | _ | v
        · rfl
        · rfl
        · exact congrArg pure (hv.text content v htext).symm
      rw [Option.map_none, Expr.reach, Expr.reach, htext, Traced.asReached_map]
    | some r => exact h.memberOf (hbefore r rfl) content
  | .number digits p =>
    cases before with
    | none =>
      have hnumber : numberOf digits p = Value.map σ <$> numberOf digits p := by
        rw [numberOf]
        split <;> rfl
      exact (congrArg Traced.asReached hnumber).trans (Traced.asReached_map _)
    | some r => rfl
  | .index n indexes _ =>
    -- what stands between the brackets begins lookups of its own
    have harguments := readArguments_map h hv hρ indexes fun o ho =>
      horigins o (List.mem_append_right _ ho)
    have hwalk := Walk.index_maps (σ := σ) ((readArguments w ρ indexes).map (·.sense))
    rw [← Argument.senses_eq harguments] at hwalk
    cases before with
    | none =>
      have hn := horigins (.ofName parameters n) (by simp [Expr.origins])
      rw [Option.map_none, Expr.reach, Expr.reach]
      simp only [h.resolve hρ hn, bind_map_left, map_bind]
      exact bind_congr fun v => h.step (r := .value v true) trivial hwalk
    | some r =>
      rw [Option.map_some, Expr.reach, Expr.reach]
      simp only [h.memberOf (hbefore r rfl), bind_map_left, map_bind]
      exact Traced.bind_congr_ok fun r' hr' => h.step (Reached.isFrom_of_member hr') hwalk
  | .group inner p =>
    cases before with
    | none =>
      have hinner := h.sense (e := inner) horigins (inner.reach_map h hv hρ none nofun horigins)
      rw [Option.map_none, Expr.reach, Expr.reach, hinner, Sense.map, Traced.asReached_map]
    | some r => rfl
  | .lambda _ _ p => rfl
  | .before o operand p =>
    rw [Expr.origins] at horigins
    rw [Expr.reach.eq_def, Expr.reach.eq_def w ρ before]
    simp only [World.on_vocabulary]
    by_cases hpath : o.name = pathOperator
    · have hoperand := operand.reach_map h hv hρ before hbefore (by simpa [hpath] using horigins)
      simp only [if_pos hpath, hoperand]
    · have horigins : ∀ o ∈ operand.origins w.vocabulary parameters true, allowed o := by
        simpa [bne_iff_ne.2 hpath] using horigins
      have hoperand := h.sense horigins (operand.reach_map h hv hρ none nofun horigins)
      simp only [if_neg hpath, hoperand]
      cases before with
      | some r => rfl
      | none =>
        rcases w.vocabulary.before.lookup o.name with _ | meaning
        · rfl
        · simp only [Option.map_none, meaning.interpret_map, Traced.asReached_map]
  | .after o operand p =>
    rw [Expr.origins] at horigins
    rw [Expr.reach.eq_def, Expr.reach.eq_def w ρ before]
    simp only [World.on_vocabulary]
    by_cases hpath : o.name = pathOperator
    · have hoperand := operand.reach_map h hv hρ before hbefore (by simpa [hpath] using horigins)
      simp only [if_pos hpath, hoperand]
    · have horigins : ∀ o ∈ operand.origins w.vocabulary parameters true, allowed o := by
        simpa [bne_iff_ne.2 hpath] using horigins
      have hoperand := h.sense horigins (operand.reach_map h hv hρ none nofun horigins)
      simp only [if_neg hpath, hoperand]
      cases before with
      | some r => rfl
      | none =>
        rcases w.vocabulary.after.lookup o.name with _ | meaning
        · rfl
        · simp only [Option.map_none, meaning.interpret_map, Traced.asReached_map]
  | .binary o left right p =>
    rw [Expr.origins] at horigins
    have hinleft := fun o ho => horigins o (List.mem_append_left _ ho)
    have hinright := fun o ho => horigins o (List.mem_append_right _ ho)
    rw [Expr.reach.eq_def, Expr.reach.eq_def w ρ before]
    simp only [World.on_vocabulary]
    by_cases hpath : o.name = pathOperator
    · have hleftorigins : ∀ o ∈ left.origins w.vocabulary parameters before.isNone, allowed o := by
        simpa [hpath] using hinleft
      have hleft := left.reach_map h hv hρ before hbefore hleftorigins
      have hright (r : Reached) (hr : r.IsFrom allowed) :=
        right.reach_map h hv hρ (some r) (fun _ h => Option.some.inj h ▸ hr)
          (by simpa [hpath] using hinright)
      simp only [if_pos hpath, hleft, bind_map_left, map_bind]
      -- what the chain goes on from is a qualifier only if that is among the origins
      exact Traced.bind_congr_ok fun r hr => hright r (left.reach_isFrom hleftorigins hr)
    · have hinleft : ∀ o ∈ left.origins w.vocabulary parameters true, allowed o := by
        simpa [bne_iff_ne.2 hpath] using hinleft
      have hinright : ∀ o ∈ right.origins w.vocabulary parameters true, allowed o := by
        simpa [bne_iff_ne.2 hpath] using hinright
      have hleft := h.sense hinleft (left.reach_map h hv hρ none nofun hinleft)
      have hright := h.sense hinright (right.reach_map h hv hρ none nofun hinright)
      simp only [if_neg hpath, hleft, hright]
      cases before with
      | some r => rfl
      | none =>
        rcases hmeaning : w.vocabulary.binary.lookup o.name with _ | meaning
        · rfl
        · have hcustom : ∀ operation, meaning = .custom operation →
              ∀ vs, (operation.compute vs).map σ = operation.compute vs := by
            rintro operation rfl
            exact hv.binary o.name operation hmeaning
          simp only [Option.map_none, meaning.interpret_map p _ _ hcustom, Traced.asReached_map]
  | .call n arguments p =>
    have harguments := readArguments_map h hv hρ arguments fun o ho =>
      horigins o (List.mem_append_right _ ho)
    cases before with
    | none =>
      rw [Option.map_none, Expr.reach, Expr.reach, World.call_map hv n p harguments,
        Traced.asReached_map]
    | some r => exact h.select hv (hbefore r rfl) n p harguments

theorem Expr.interpretFor_map (h : w.document.Recasts σ allowed d')
    (hv : w.vocabulary.Respects σ) {ρ : Environment} {parameters : List String}
    (hρ : ρ.Binds parameters) (item : Node × Nat) (e : Expr)
    (horigins : ∀ o ∈ e.origins w.vocabulary parameters true, allowed o) :
    e.interpretFor (w.on d') (ρ.map σ) (itemMap σ item) =
      Operand.map σ <$> e.interpretFor w ρ item := by
  match e with
  | .lambda inner body _ =>
    rw [Expr.origins] at horigins
    -- inside, the parameters stand for the changed item and for its position
    have hbinds := hρ.enter (inner.map (·.name)) item
    have hbody := h.sense horigins (body.reach_map h hv hbinds none nofun horigins)
    rw [Expr.interpretFor, Expr.interpretFor, Environment.map_enter, hbody, σ.operand]
  | .name .. | .number .. | .text .. | .binary .. | .before .. | .after .. | .group .. | .call ..
  | .index .. => rfl

theorem readArguments_map (h : w.document.Recasts σ allowed d') (hv : w.vocabulary.Respects σ)
    {ρ : Environment} {parameters : List String} (hρ : ρ.Binds parameters) (es : List Expr)
    (horigins : ∀ o ∈ originsOfAll w.vocabulary parameters es, allowed o) :
    List.Forall₂ (Argument.Maps σ) (readArguments w ρ es)
      (readArguments (w.on d') (ρ.map σ) es) := by
  match es with
  | [] => exact .nil
  | e :: es =>
    have hfirst := fun o ho => horigins o (List.mem_append_left _ ho)
    refine .cons ⟨?_, fun item => ?_⟩ ?_
    · exact h.sense hfirst (e.reach_map h hv hρ none nofun hfirst)
    · exact e.interpretFor_map h hv hρ item hfirst
    · exact readArguments_map h hv hρ es fun o ho => horigins o (List.mem_append_right _ ho)

end

end Expressions

/-- What is compiled from an expression all of whose lookups begin at allowed origins has the same
value in documents that agree as far as these read them, with the same sightings, or the same
fault. -/
theorem evaluateIn_map {e : Engine} {tree : Expr} {f : Formula} {d : Document}
    {allowed : LookupOrigin → Prop} (hcompile : compile ⟨e.dialect, []⟩ tree = .ok f)
    (hv : e.dialect.vocabulary.Respects σ)
    (horigins : ∀ o ∈ tree.origins e.dialect.vocabulary [] true, allowed o)
    (h : d.Recasts σ allowed d') : e.evaluateIn d' f = Value.map σ <$> e.evaluateIn d f := by
  let w : World := ⟨e.dialect.vocabulary, d, e.options, e.now⟩
  have hrecasts : w.document.Recasts σ allowed d' := h
  have hreach := tree.reach_map hrecasts hv Environment.binds_outermost none nofun horigins
  have hsense := hrecasts.sense horigins hreach
  rw [Environment.map_outermost] at hsense
  rw [Engine.evaluateIn, Engine.evaluateIn, evaluate_eq_interpret hcompile,
    evaluate_eq_interpret hcompile]
  exact congrArg Sense.value hsense

/-! ### Qualified expressions -/

/-- Whether every lookup of an expression begins at a parameter, a literal, a call or the given
qualifier. -/
def Expr.IsConfinedTo (v : Vocabulary) (q : Qualifier) (e : Expr) : Prop :=
  ∀ o ∈ e.origins v [] true, o ∈ [LookupOrigin.parameter, .literal, .call, .qualifier q]

instance (v : Vocabulary) (q : Qualifier) (e : Expr) : Decidable (e.IsConfinedTo v q) :=
  inferInstanceAs (Decidable (∀ o ∈ e.origins v [] true, _))

namespace Document

variable {d d' : Document} {o : LookupOrigin}

/-- Lookups that begin at `this` read nothing that is inherited. -/
theorem recasts_of_page (h : d'.toPage = d.toPage) :
    d.Recasts .refl (· ∈ [LookupOrigin.parameter, .literal, .call, .qualifier .this]) d' where
  id := congrArg Page.id h
  root _ _ _ := congrArg Page.root h
  ancestors o ho hreads := by
    simp only [List.mem_cons, List.not_mem_nil, or_false] at ho
    rcases ho with rfl | rfl | rfl | rfl <;> exact absurd hreads Bool.false_ne_true

/-- Lookups that begin at `parent` read nothing in the document itself. -/
theorem recasts_of_ancestors (hid : d'.id = d.id) (h : d'.ancestors = d.ancestors) :
    d.Recasts .refl (· ∈ [LookupOrigin.parameter, .literal, .call, .qualifier .parent]) d' where
  id := hid
  root o ho hreads := by
    simp only [List.mem_cons, List.not_mem_nil, or_false] at ho
    rcases ho with rfl | rfl | rfl | rfl <;> exact absurd hreads Bool.false_ne_true
  ancestors _ _ _ := congrArg (List.map Page.root) h

end Document

/-- A change that leaves all values as they are leaves an evaluation as it is. -/
theorem Traced.map_refl (x : Traced Value) :
    Value.map (.refl : Rearrangement) <$> x = x := by
  have hid : Value.map (.refl : Rearrangement) = id := funext Value.map_id
  rw [hid, id_map]

variable {text : String} {origin : Position} {tree : Expr}

/-- Qualifiers confine lookups, those in lambdas, in arguments and between brackets among them. An
expression all of whose lookups begin at parameters, literals, calls or `this` has the same value,
with the same sightings, or the same fault, whatever its document inherits from, so a query for it
does not depend on the documents. One whose lookups begin at `parent` instead has the same value
whatever its document holds. -/
theorem lookups_confined (e : Engine)
    (hparse : parseExpression e.dialect.language text origin = .ok tree) :
    (tree.IsConfinedTo e.dialect.vocabulary .this →
      (∀ f d d', compileExpression e.dialect text origin = .ok f → d'.toPage = d.toPage →
        e.evaluateIn d' f = e.evaluateIn d f) ∧
      (origin = .start → ∀ documents documents',
        e.query text documents' = e.query text documents)) ∧
    (tree.IsConfinedTo e.dialect.vocabulary .parent →
      ∀ f d d', compileExpression e.dialect text origin = .ok f → d'.id = d.id →
        d'.ancestors = d.ancestors → e.evaluateIn d' f = e.evaluateIn d f) := by
  have hsame {q : Qualifier} (hconfined : tree.IsConfinedTo e.dialect.vocabulary q) {f : Formula}
      {d d' : Document} (hf : compileExpression e.dialect text origin = .ok f)
      (h : d.Recasts .refl (· ∈ [LookupOrigin.parameter, .literal, .call, .qualifier q]) d') :
      e.evaluateIn d' f = e.evaluateIn d f := by
    obtain ⟨parsed, hparsed, hcompile⟩ := Except.bind_eq_ok_iff.1 hf
    obtain rfl := Except.ok.inj (hparse.symm.trans hparsed)
    rw [evaluateIn_map hcompile e.dialect.vocabulary.respects_refl hconfined h,
      Traced.map_refl]
  refine ⟨fun hthis => ⟨?_, ?_⟩, fun hparent => ?_⟩
  · intro f d d' hf hpage
    exact hsame hthis hf (Document.recasts_of_page hpage)
  · rintro rfl documents documents'
    rcases e.query_eq text with ⟨fault, -, hquery⟩ | ⟨f, hf, hquery⟩
    · rw [hquery, hquery]
    · have hpage : (Engine.queryDocument documents').toPage =
          (Engine.queryDocument documents).toPage := rfl
      have hvalue := hsame hthis hf (Document.recasts_of_page hpage)
      rw [Engine.evaluateIn, Engine.evaluateIn] at hvalue
      rw [hquery, hquery, hvalue]
  · intro f d d' hf hid hancestors
    exact hsame hparent hf (Document.recasts_of_ancestors hid hancestors)

theorem lookups_confined_members :
    let e : Engine := ⟨.standard, .standard, .midnight ⟨2024, 1, 1⟩⟩
    (∃ f, compileExpression .standard "this.A.Where(x => x.B > this.L[0])" .start = .ok f ∧
      ∀ d ancestors, e.evaluateIn { d with ancestors := ancestors } f = e.evaluateIn d f) ∧
    (∃ f, compileExpression .standard "parent.A.Where(x => x.B > parent.L[0])" .start = .ok f ∧
      ∀ d root, e.evaluateIn { d with root := root } f = e.evaluateIn d f) ∧
    ∀ documents documents', e.query "this.A.Where(x => x.B > this.L[0])" documents' =
      e.query "this.A.Where(x => x.B > this.L[0])" documents := by
  intro e
  obtain ⟨ofThis, hthis⟩ := Except.exists_of_isOk
    (show (compileExpression .standard "this.A.Where(x => x.B > this.L[0])" .start).isOk by
      decide +kernel)
  obtain ⟨ofParent, hparent⟩ := Except.exists_of_isOk
    (show (compileExpression .standard "parent.A.Where(x => x.B > parent.L[0])" .start).isOk by
      decide +kernel)
  obtain ⟨tree, htree, hconfined⟩ : ∃ tree,
      parseExpression .standard "this.A.Where(x => x.B > this.L[0])" .start = .ok tree ∧
        tree.IsConfinedTo .standard .this :=
    ⟨_, rfl, by decide +kernel⟩
  obtain ⟨tree', htree', hconfined'⟩ : ∃ tree,
      parseExpression .standard "parent.A.Where(x => x.B > parent.L[0])" .start = .ok tree ∧
        tree.IsConfinedTo .standard .parent :=
    ⟨_, rfl, by decide +kernel⟩
  obtain ⟨hvalue, hquery⟩ := (lookups_confined e htree).1 hconfined
  have hvalue' := (lookups_confined e htree').2 hconfined'
  refine ⟨⟨ofThis, hthis, fun d ancestors => ?_⟩, ⟨ofParent, hparent, fun d root => ?_⟩, ?_⟩
  · exact hvalue ofThis d _ hthis rfl
  · exact hvalue' ofParent d _ hparent rfl rfl
  · exact hquery rfl

end DocQuery
