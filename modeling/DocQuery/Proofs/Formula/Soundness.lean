/-
Evaluations fail only where a text or a value is at fault.

* `Traced.IsSound` — an evaluation that finds no invariant of the library broken;
* `Expr.reach_isSound` — nothing that is interpreted does;
* `evaluate_isSound` — nothing that is compiled and evaluated outside of lambdas does.

Design notes: a fault ends the whole evaluation, since nothing goes on after one. So whatever is met
on the way shows in the outcome. An environment knows every name, so the interpretation has no case
for one that is not bound; an evaluation that agrees with it never gets to its own.
-/
import DocQuery.Proofs.Fault
import DocQuery.Proofs.Formula.Scoping

namespace DocQuery

open Outcome

namespace Value

variable (options : Options) (p : Position) (v : Value)

theorem toBoolean_isSound : IsSound (v.toBoolean p) := by
  unfold toBoolean
  split
  · exact isSound_ok _
  · exact isSound_failed _ _

theorem toNumber_isSound : IsSound (v.toNumber p) := by
  unfold toNumber
  simp only
  split
  · exact isSound_ok _
  · exact isSound_failed _ _

theorem toText_isSound : IsSound (v.toText p) := by
  unfold toText
  split
  · exact isSound_ok _
  · exact isSound_failed _ _

theorem toMoment_isSound : IsSound (v.toMoment options p) := by
  unfold toMoment
  simp only
  split
  · exact isSound_ok _
  · exact isSound_failed _ _

theorem expect_isSound (type : ScalarType) : IsSound (v.expect options type p) := by
  cases type with
  | boolean => exact (v.toBoolean_isSound p).map _
  | number => exact (v.toNumber_isSound p).map _
  | text => exact (v.toText_isSound p).map _
  | moment => exact (v.toMoment_isSound options p).map _

theorem display_isSound : IsSound (v.display p) := by
  unfold display
  split
  · exact isSound_ok _
  · exact isSound_ok _
  · split
    · exact isSound_failed _ _
    · exact isSound_ok _

theorem items_isSound (function : String) : IsSound (v.items function p) := by
  unfold items
  split
  · exact isSound_ok _
  · exact isSound_ok _
  · exact isSound_ok _
  · exact isSound_failed _ _

theorem order_isSound (b : Value) : IsSound (v.order options p b) := by
  unfold order
  split
  · exact isSound_failed _ _
  · exact isSound_failed _ _
  · split
    · exact isSound_ok _
    · exact isSound_failed _ _

theorem asserted_isSound : IsSound (v.asserted p) := by
  unfold asserted
  split
  · exact isSound_failed _ _
  · split
    · exact isSound_failed _ _
    · exact isSound_ok _

end Value

namespace Operand

variable (a : Operand)

theorem boolean_isSound : IsSound a.boolean := a.value.toBoolean_isSound a.position

theorem number_isSound : IsSound a.number := a.value.toNumber_isSound a.position

theorem text_isSound : IsSound a.text := a.value.toText_isSound a.position

theorem wholeNumber_isSound : IsSound a.wholeNumber := by
  refine a.number_isSound.bind fun x => ?_
  split
  · exact isSound_failed _ _
  · exact isSound_ok _

theorem index_isSound : IsSound a.index := a.wholeNumber_isSound.bind fun _ => isSound_ok _

end Operand

theorem UnaryFunction.run_isSound (options : Options) (a : Operand) (f : UnaryFunction) :
    IsSound (f.run options a) := by
  have hword (change : List Char → List Char) : IsSound (mapText change a) :=
    a.text_isSound.bind fun s => isSound_ok _
  have hinteger (name : String) : IsSound (integer name a) := by
    refine a.number_isSound.bind fun x => ?_
    split
    · exact isSound_ok _
    · exact isSound_failed _ _
  cases f with
  | negate | toInt | toDouble | abs => exact a.number_isSound.map _
  | not => exact a.boolean_isSound.map _
  | lower | upper | trim => exact hword _
  | len => exact a.text_isSound.map _
  | toText => exact (a.value.display_isSound a.position).map _
  | toBoolean =>
    refine IsSound.map ?_ _
    unfold readBoolean
    simp only
    split
    · exact isSound_ok _
    · exact isSound_failed _ _
  | toMoment => exact (a.value.toMoment_isSound options a.position).map _
  | isEven | isOdd => exact (hinteger _).map _
  | isNull | isUndefined | hasValue => exact isSound_ok _

theorem BinaryOperation.run_isSound (options : Options) (p : Position) (a b : Operand)
    (o : BinaryOperation) : IsSound (o.run options p a b) := by
  cases o with
  | sum =>
    show IsSound (add a b)
    unfold add
    split
    · exact a.text_isSound.bind fun s => b.text_isSound.bind fun t => isSound_ok _
    · exact a.number_isSound.bind fun x => b.number_isSound.bind fun y => isSound_ok _
  | arithmetic operator =>
    refine a.number_isSound.bind fun x => b.number_isSound.bind fun y => ?_
    refine IsSound.bind ?_ fun z => isSound_ok _
    unfold compute
    split
    · exact isSound_ok _
    · exact isSound_ok _
    · split
      · exact isSound_failed _ _
      · exact isSound_ok _
    · split
      · exact isSound_failed _ _
      · exact isSound_ok _
  | equal | unequal => exact isSound_ok _
  | relation r => exact (a.value.order_isSound options p b.value).map _

theorem Tally.add_isSound (a : Operand) (tally : Tally) : IsSound (tally.add a) := by
  cases tally with
  | count | any | all => exact a.boolean_isSound.map _
  | sum | average | extreme => exact a.number_isSound.map _

/-! ### Evaluations -/

namespace Traced

variable {α β : Type}

/-- Whether an evaluation has a result, or a fault that is not one of the library. -/
def IsSound (x : Traced α) : Prop := Outcome.IsSound x.outcome

theorem isSound_pure (a : α) : IsSound (pure a) := isSound_ok a

theorem isSound_see (sightings : List Sighting) : IsSound (see sightings) := isSound_ok ()

theorem isSound_ofExcept {x : Except Fault α} (h : Outcome.IsSound x) : IsSound (ofExcept x) := h

theorem IsSound.bind {x : Traced α} {f : α → Traced β} (hx : x.IsSound)
    (hf : ∀ a, (f a).IsSound) : (x >>= f).IsSound := by
  rcases hout : x.outcome with fault | a
  · rw [bind_error hout]
    intro fault' h
    obtain rfl := Except.error.inj h
    exact hx fault hout
  · rw [bind_ok hout]
    exact hf a

/-- What is seen on the way plays no part. -/
theorem IsSound.after_see {x : Traced β} (h : x.IsSound) (sightings : List Sighting) :
    IsSound (do see sightings; x) :=
  (isSound_see sightings).bind fun _ => h

end Traced

open Traced

theorem refused_isSound {α : Type} (p : Position) : (refused p : Traced α).IsSound := by
  intro fault h
  obtain rfl := Except.error.inj h
  trivial

section Items

variable {test : Node × Nat → Traced Bool} {valueOf : Node × Nat → Traced Operand}

theorem filterItems_isSound (h : ∀ item, (test item).IsSound) (items : List (Node × Nat)) :
    (filterItems test items).IsSound := by
  induction items with
  | nil => exact isSound_pure _
  | cons item items ih => exact (h item).bind fun _ => ih.bind fun _ => isSound_pure _

theorem projectItems_isSound {project : Node × Nat → Traced Value}
    (h : ∀ item, (project item).IsSound) (items : List (Node × Nat)) :
    (projectItems project items).IsSound := by
  induction items with
  | nil => exact isSound_pure _
  | cons item items ih => exact (h item).bind fun _ => ih.bind fun _ => isSound_pure _

theorem findItem_isSound (h : ∀ item, (test item).IsSound) (items : List (Node × Nat)) :
    (findItem test items).IsSound := by
  induction items with
  | nil => exact isSound_pure _
  | cons item items ih =>
    refine (h item).bind fun passes => ?_
    split
    · exact isSound_pure _
    · exact ih

theorem Tally.collect_isSound (h : ∀ item, (valueOf item).IsSound) (tally : Tally)
    (items : List (Node × Nat)) : (tally.collect valueOf items).IsSound := by
  induction items generalizing tally with
  | nil => exact isSound_pure _
  | cons item items ih =>
    refine (h item).bind fun a => (isSound_ofExcept (tally.add_isSound a)).bind ?_
    rintro ⟨next, goesOn⟩
    show (if goesOn then _ else _ : Traced Tally).IsSound
    split
    · exact ih next
    · exact isSound_pure _

theorem LambdaSelector.select_isSound (h : ∀ item, (valueOf item).IsSound) (items : List Node)
    (selector : LambdaSelector) : (selector.select valueOf items).IsSound := by
  have htest (item : Node × Nat) : (testOf valueOf item).IsSound :=
    (h item).bind fun a => isSound_ofExcept a.boolean_isSound
  cases selector with
  | filter => exact (filterItems_isSound htest _).bind fun _ => isSound_pure _
  | project =>
    refine (projectItems_isSound (fun item => ?_) _).bind fun _ => isSound_pure _
    exact (h item).bind fun _ => isSound_pure _
  | first | last => exact (findItem_isSound htest _).bind fun _ => isSound_pure _

theorem Aggregate.runWith_isSound (h : ∀ item, (valueOf item).IsSound) (a : Aggregate)
    (items : List Node) : (a.runWith valueOf items).IsSound :=
  (Tally.collect_isSound h _ _).bind fun _ => isSound_pure _

theorem Aggregate.run_isSound (a : Aggregate) (p : Position) (items : List Node) :
    (a.run p items).IsSound := by
  cases a with
  | count | any => exact isSound_pure _
  | all | sum | average | min | max => exact runWith_isSound (fun _ => isSound_pure _) _ _

end Items

/-! ### Interpretations -/

namespace Sense

/-- Whether the value of an expression is sound. -/
def IsSound (a : Sense) : Prop := a.value.IsSound

variable {a : Sense} {as : List Sense}

theorem IsSound.operand (h : a.IsSound) : a.operand.IsSound := h.bind fun _ => isSound_pure _

theorem IsSound.toBoolean {β : Type} {f : Bool → Traced β} (h : a.IsSound)
    (hf : ∀ b, (f b).IsSound) :
    (a.value >>= fun v => Traced.ofExcept (v.toBoolean a.position) >>= f).IsSound :=
  h.bind fun v => (isSound_ofExcept (v.toBoolean_isSound _)).bind hf

theorem texts_isSound (h : ∀ a ∈ as, a.IsSound) : (texts as).IsSound := by
  induction as with
  | nil => exact isSound_pure _
  | cons a as ih =>
    obtain ⟨ha, has⟩ := List.forall_mem_cons.1 h
    refine ha.bind fun v => (isSound_ofExcept (v.toText_isSound _)).bind fun s => ?_
    exact (ih has).bind fun _ => isSound_pure _

theorem converted_isSound (options : Options) (type : ScalarType) (h : ∀ a ∈ as, a.IsSound) :
    (converted options type as).IsSound := by
  induction as with
  | nil => exact isSound_pure _
  | cons a as ih =>
    obtain ⟨ha, has⟩ := List.forall_mem_cons.1 h
    refine ha.bind fun v => (isSound_ofExcept (v.expect_isSound _ _ _)).bind fun _ => ?_
    exact (ih has).bind fun _ => isSound_pure _

theorem indexed_isSound (isTracked : Bool) (view : View) (h : ∀ a ∈ as, a.IsSound) :
    (indexed isTracked view as).IsSound := by
  induction as generalizing view with
  | nil => exact isSound_pure _
  | cons a as ih =>
    obtain ⟨ha, has⟩ := List.forall_mem_cons.1 h
    refine ha.operand.bind fun x => (isSound_ofExcept x.index_isSound).bind fun index => ?_
    exact (ih _ has).after_see _

theorem located_isSound (isTracked : Bool) (items : List Node) (found : Option Node)
    (h : ∀ a ∈ as, a.IsSound) : (located isTracked items found as).IsSound := by
  induction as generalizing items found with
  | nil => exact isSound_pure _
  | cons a as ih =>
    obtain ⟨ha, has⟩ := List.forall_mem_cons.1 h
    refine ha.operand.bind fun x => (isSound_ofExcept x.index_isSound).bind fun index => ?_
    refine IsSound.after_see ?_ _
    split
    · exact isSound_pure _
    · exact ih _ _ has

end Sense

section Meanings

variable (w : World) (p : Position) {a b : Sense}

theorem OperandMeaning.interpret_isSound (meaning : OperandMeaning) (ha : a.IsSound) :
    (meaning.interpret w p a).IsSound := by
  cases meaning with
  | apply f => exact ha.operand.bind fun x => isSound_ofExcept (f.run_isSound _ x)
  | assert => exact ha.bind fun v => isSound_ofExcept (v.asserted_isSound _)

theorem BinaryMeaning.interpret_isSound (meaning : BinaryMeaning) (ha : a.IsSound)
    (hb : b.IsSound) : (meaning.interpret w p a b).IsSound := by
  cases meaning with
  | operation o =>
    exact ha.operand.bind fun x => hb.operand.bind fun y =>
      isSound_ofExcept (o.run_isSound _ _ x y)
  | both =>
    refine ha.toBoolean fun holds => ?_
    cases holds with
    | true => exact hb.toBoolean fun _ => isSound_pure _
    | false => exact isSound_pure _
  | either =>
    refine ha.toBoolean fun holds => ?_
    cases holds with
    | true => exact isSound_pure _
    | false => exact hb.toBoolean fun _ => isSound_pure _
  | fallback =>
    -- the alternative has to be sound for a value that is missing and for one that does not convert
    refine ha.bind fun v => ?_
    split
    · exact hb
    · split
      · exact isSound_pure _
      · split
        · exact isSound_pure _
        · exact hb
  | custom o =>
    refine (Sense.converted_isSound _ _ ?_).bind fun _ => isSound_pure _
    simp [ha, hb]

theorem FunctionMeaning.interpret_isSound (meaning : FunctionMeaning) {as : List Sense}
    (h : ∀ a ∈ as, a.IsSound) : (meaning.interpret w p as).IsSound := by
  unfold interpret
  split
  · exact (h _ (by simp)).operand.bind fun x => isSound_ofExcept (UnaryFunction.run_isSound _ x _)
  · refine (h _ (by simp)).bind fun v => (isSound_ofExcept (v.toText_isSound _)).bind fun s => ?_
    refine (h _ (by simp)).bind fun v => (isSound_ofExcept (v.toText_isSound _)).bind fun t => ?_
    exact isSound_pure _
  · exact (Sense.texts_isSound h).bind fun _ => isSound_pure _
  · refine (h _ (by simp)).toBoolean fun holds => ?_
    split
    · exact h _ (by simp)
    · exact h _ (by simp)
  · exact isSound_pure _
  · exact (Sense.converted_isSound _ _ h).bind fun _ => isSound_pure _
  · exact refused_isSound p

theorem Aggregate.interpret_isSound (aggregate : Aggregate) (ha : a.IsSound)
    {valueOf : Option (Node × Nat → Traced Operand)}
    (h : ∀ f, valueOf = some f → ∀ item, (f item).IsSound) :
    (aggregate.interpret a valueOf).IsSound := by
  refine ha.bind fun v => (isSound_ofExcept (v.items_isSound _ _)).bind fun items => ?_
  cases valueOf with
  | none => exact aggregate.run_isSound _ items
  | some f => exact aggregate.runWith_isSound (h f rfl) items

end Meanings

/-- Whether a step is sound from everywhere. -/
def Walk.IsSound (walk : Walk) : Prop := ∀ isTracked view, (walk isTracked view).IsSound

namespace Walk

theorem member_isSound (name : String) : (member name).IsSound :=
  fun _ _ => (isSound_pure _).after_see _

theorem index_isSound {indexes : List Sense} (h : ∀ a ∈ indexes, a.IsSound) :
    (index indexes).IsSound :=
  fun _ _ => Sense.indexed_isSound _ _ h

theorem positions_isSound {indexes : List Sense} (p : Position)
    (h : ∀ a ∈ indexes, a.IsSound) : (positions indexes p).IsSound :=
  fun _ view => (isSound_ofExcept (view.toValue.items_isSound _ _)).bind fun _ =>
    (Sense.located_isSound _ _ _ h).bind fun _ => isSound_pure _

theorem arrange_isSound (arrangement : Arrangement) (p : Position) :
    (arrange arrangement p).IsSound :=
  fun _ view => (isSound_ofExcept (view.toValue.items_isSound _ _)).bind fun _ =>
    (isSound_pure _).after_see _

theorem through_isSound (selector : LambdaSelector) {valueOf : Node × Nat → Traced Operand}
    (p : Position) (h : ∀ item, (valueOf item).IsSound) : (through selector valueOf p).IsSound :=
  fun _ view => (isSound_ofExcept (view.toValue.items_isSound _ _)).bind fun items =>
    (selector.select_isSound h items).after_see _

end Walk

section Lookups

variable (w : World)

theorem World.property_isSound (name : String) (scope : Scope) : (w.property name scope).IsSound :=
  (isSound_pure _).after_see _

/-- Every name stands for something. -/
theorem World.resolve_isSound (r : Referent) : (w.resolve r).IsSound := by
  cases r with
  | property name => exact w.property_isSound name .all
  | item | index => exact isSound_pure _

theorem World.begin_isSound (ρ : Environment) (name : String) : (w.begin ρ name).IsSound := by
  unfold begin
  split
  · exact isSound_pure _
  · split
    · exact isSound_pure _
    · exact (w.resolve_isSound _).bind fun _ => isSound_pure _

theorem World.text_isSound (content : String) (p : Position) : (w.text content p).IsSound := by
  unfold text
  split
  · exact isSound_pure _
  · exact isSound_pure _
  · exact refused_isSound p

theorem numberOf_isSound (digits : String) (p : Position) : (numberOf digits p).IsSound := by
  unfold numberOf
  split
  · exact isSound_pure _
  · exact refused_isSound p

theorem Reached.step_isSound {walk : Walk} (h : walk.IsSound) (r : Reached) :
    (r.step w walk).IsSound := by
  cases r with
  | qualifier q => exact ((h _ _).bind fun _ => isSound_pure _).after_see _
  | value v isTracked => exact ((h _ _).bind fun _ => isSound_pure _).after_see _

theorem Reached.member_isSound (name : String) (r : Reached) : (r.member w name).IsSound := by
  cases r with
  | qualifier q => exact (w.property_isSound name _).bind fun _ => isSound_pure _
  | value v isTracked => exact step_isSound w (Walk.member_isSound name) _

theorem Reached.finish_isSound (r : Reached) : (r.finish w).IsSound := by
  cases r <;> exact (isSound_pure _).after_see _

/-- Whether an argument is sound, both as a value and as a lambda. -/
def Argument.IsSound (a : Argument) : Prop :=
  a.sense.IsSound ∧ ∀ item, (a.valueFor item).IsSound

theorem Argument.map_isSound {arguments : List Argument} (h : ∀ a ∈ arguments, a.IsSound) :
    ∀ d ∈ arguments.map (·.sense), d.IsSound :=
  List.forall_mem_map.2 fun a ha => (h a ha).1

theorem World.call_isSound (n : String) (p : Position) {arguments : List Argument}
    (h : ∀ a ∈ arguments, a.IsSound) : (w.call n p arguments).IsSound := by
  unfold call
  split
  · exact refused_isSound p
  · split
    · refine Aggregate.interpret_isSound _ (h _ (by simp)).1 ?_
      intro f hf
      exact absurd hf (by simp)
    · rename_i lambda
      refine Aggregate.interpret_isSound _ (h _ (by simp)).1 ?_
      intro f hf
      obtain rfl := Option.some.inj hf
      exact (h lambda (by simp)).2
    · exact refused_isSound p
  · exact FunctionMeaning.interpret_isSound w p _ (Argument.map_isSound h)

theorem Reached.select_isSound (n : String) (p : Position) {arguments : List Argument}
    (h : ∀ a ∈ arguments, a.IsSound) (r : Reached) : (r.select w n p arguments).IsSound := by
  unfold select
  split
  · exact refused_isSound p
  · split
    · exact r.step_isSound w (Walk.through_isSound _ p (h _ (by simp)).2)
    · exact r.step_isSound w (Walk.through_isSound _ p (h _ (by simp)).2)
    · exact r.step_isSound w (Walk.arrange_isSound _ p)
    · exact r.step_isSound w (Walk.arrange_isSound _ p)
    · exact r.step_isSound w (Walk.positions_isSound p (Argument.map_isSound h))
    · exact r.step_isSound w (Walk.arrange_isSound _ p)
    · exact refused_isSound p

theorem Traced.IsSound.asReached {x : Traced Value} (h : x.IsSound) : x.asReached.IsSound :=
  h.bind fun _ => isSound_pure _

theorem Expr.sense_isSound (e : Expr) {reached : Traced Reached} (h : reached.IsSound) :
    (e.sense w reached).IsSound :=
  h.bind fun r => r.finish_isSound w

end Lookups

mutual

theorem Expr.reach_isSound (w : World) (ρ : Environment) (before : Option Reached) (e : Expr) :
    (e.reach w ρ before).IsSound := by
  match e with
  | .name n _ =>
    cases before with
    | none => exact w.begin_isSound ρ n
    | some r => exact r.member_isSound w n
  | .text content p =>
    cases before with
    | none => exact (w.text_isSound content p).asReached
    | some r => exact r.member_isSound w content
  | .number digits p =>
    cases before with
    | none => exact (numberOf_isSound digits p).asReached
    | some _ => exact refused_isSound p
  | .index n indexes _ =>
    have hwalk := Walk.index_isSound (Argument.map_isSound (readArguments_areSound w ρ indexes))
    cases before with
    | none => exact (w.resolve_isSound _).bind fun v => Reached.step_isSound w hwalk _
    | some r => exact (r.member_isSound w n).bind fun r => r.step_isSound w hwalk
  | .group inner p =>
    cases before with
    | none => exact (inner.sense_isSound w (inner.reach_isSound w ρ none)).asReached
    | some _ => exact refused_isSound p
  | .lambda _ _ p => exact refused_isSound p
  | .before o operand p =>
    -- as part of a chain the operand goes on with it, and else it is an operand by itself
    have hoperand := operand.sense_isSound w (operand.reach_isSound w ρ none)
    rw [Expr.reach.eq_def]
    simp only
    split
    · exact operand.reach_isSound w ρ before
    · split
      · exact (OperandMeaning.interpret_isSound w p _ hoperand).asReached
      · exact refused_isSound p
  | .after o operand p =>
    have hoperand := operand.sense_isSound w (operand.reach_isSound w ρ none)
    rw [Expr.reach.eq_def]
    simp only
    split
    · exact operand.reach_isSound w ρ before
    · split
      · exact (OperandMeaning.interpret_isSound w p _ hoperand).asReached
      · exact refused_isSound p
  | .binary o left right p =>
    have hleft := left.sense_isSound w (left.reach_isSound w ρ none)
    have hright := right.sense_isSound w (right.reach_isSound w ρ none)
    rw [Expr.reach.eq_def]
    simp only
    split
    · exact (left.reach_isSound w ρ before).bind fun r => right.reach_isSound w ρ (some r)
    · split
      · exact (BinaryMeaning.interpret_isSound w p _ hleft hright).asReached
      · exact refused_isSound p
  | .call n arguments p =>
    have harguments := readArguments_areSound w ρ arguments
    cases before with
    | none => exact (w.call_isSound n p harguments).asReached
    | some r => exact r.select_isSound w n p harguments

theorem Expr.interpretFor_isSound (w : World) (ρ : Environment) (item : Node × Nat) (e : Expr) :
    (e.interpretFor w ρ item).IsSound := by
  match e with
  | .lambda parameters body _ =>
    exact (body.sense_isSound w (body.reach_isSound w _ none)).operand
  | .name .. | .number .. | .text .. | .binary .. | .before .. | .after .. | .group .. | .call ..
  | .index .. => exact refused_isSound _

theorem readArguments_areSound (w : World) (ρ : Environment) (es : List Expr) :
    ∀ a ∈ readArguments w ρ es, a.IsSound := by
  match es with
  | [] => exact List.forall_mem_nil _
  | e :: es =>
    have he := e.sense_isSound w (e.reach_isSound w ρ none)
    have hlambda (item : Node × Nat) := e.interpretFor_isSound w ρ item
    exact List.forall_mem_cons.2 ⟨⟨he, hlambda⟩, readArguments_areSound w ρ es⟩

end

/-- Nothing that is compiled outside of lambdas finds an invariant broken when it is evaluated,
whatever lambdas are active there. -/
theorem evaluate_isSound {d : Dialect} {e : Expr} {f : Formula} (h : compile ⟨d, []⟩ e = .ok f)
    (c : Context) : (evaluate c f).IsSound := by
  rw [evaluate_eq_interpret h]
  exact e.sense_isSound _ (e.reach_isSound _ _ none)

end DocQuery
