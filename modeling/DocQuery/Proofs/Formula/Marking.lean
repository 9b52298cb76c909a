/-
What an evaluation notices of the places that are still to be changed.

* `Traced.touches_bind_iff` — one of several evaluations comes across such a place;
* `Traced.touches_passed_iff`, `Traced.touches_read_iff` — values that are passed count if they lie
  in such a place, those that are read also if they lie around one;
* `Chain.reach`, `Chain.passed` — what a chain of names leads to, before it is read;
* `Chain.evaluate_extend` — more steps go on from there.

Design notes: a chain grows at its end, while it is evaluated from its beginning. So what a chain
has reached is a computation of its own, on which the evaluation of every longer chain builds.
-/
import DocQuery.Formula.Compile
import DocQuery.Proofs.Formula.Agreement
import DocQuery.Proofs.Formula.Tracing

namespace DocQuery

/-! ### Traces -/

namespace Traced

variable {α β : Type} {pending : List Path} {ns : List Node}

theorem touches_iff {x : Traced α} :
    x.touches pending ↔ ∃ s ∈ x.sightings, ∃ q ∈ pending, s.touches q := by
  simp [touches]

/-- Of two evaluations one after the other, the second one counts if it takes place. -/
theorem touches_bind_iff {x : Traced α} {f : α → Traced β} :
    (x >>= f).touches pending ↔
      x.touches pending ∨ ∃ a, x.outcome = .ok a ∧ (f a).touches pending := by
  rcases hx : x.outcome with fault | a
  · rw [bind_error hx]
    simp [touches]
  · rw [bind_ok hx]
    simp [touches]

@[simp] theorem touches_pure (a : α) : (pure a : Traced α).touches pending = false := rfl

@[simp] theorem touches_ofExcept (x : Except Fault α) : (ofExcept x).touches pending = false := rfl

@[simp] theorem touches_unnoticed (isTracked isWhole : Bool) :
    (see (unnoticed isTracked ns isWhole)).touches pending = false := by
  cases isTracked
  · rfl
  · simp [touches, see, unnoticed, Sighting.touches]

@[simp] theorem touches_map (f : α → β) (x : Traced α) :
    (f <$> x).touches pending = x.touches pending := by
  rw [map_eq_pure_bind]
  rcases hx : x.outcome with fault | a
  · rw [bind_error hx]
    rfl
  · rw [bind_ok hx]
    show List.any (x.sightings ++ []) _ = _
    rw [List.append_nil]
    rfl

theorem touches_ofExcept_bind_iff {x : Except Fault α} {f : α → Traced β} :
    (ofExcept x >>= f).touches pending ↔ ∃ a, x = .ok a ∧ (f a).touches pending := by
  rw [touches_bind_iff, touches_ofExcept]
  simp [ofExcept]

/-- Values that are passed count if they lie in a place that is still to be changed. -/
theorem touches_passed_iff :
    (see (sightingsOf ns false)).touches pending ↔ ∃ n ∈ ns, n.path.LiesIn pending := by
  simp [touches_iff, see, sightingsOf, Sighting.touches, Sighting.reaches_iff, Path.LiesIn]

/-- Values that are read count if they lie in such a place, or around one. -/
theorem touches_read_iff :
    (see (sightingsOf ns true)).touches pending ↔ ∃ n ∈ ns, n.path.Meets pending := by
  simp [touches_iff, see, sightingsOf, Sighting.touches, Sighting.reaches_iff, Path.Meets]

/-- Sightings before an evaluation. -/
theorem touches_see_bind_iff {seen : List Sighting} {x : Traced β} :
    (see seen >>= fun _ => x).touches pending ↔ (see seen).touches pending ∨ x.touches pending := by
  rw [touches_bind_iff]
  simp [see]

/-- Whether an evaluation sees all that another one sees, as it does if this one is a part of it. -/
def Includes (x : Traced α) (y : Traced β) : Prop := y.sightings ⊆ x.sightings

namespace Includes

variable {γ : Type} {x : Traced α} {y : Traced β}

theorem refl (x : Traced α) : x.Includes x := List.Subset.refl _

theorem bind (h : x.Includes y) (f : α → Traced γ) : (x >>= f).Includes y := by
  rcases hx : x.outcome with fault | a
  · rw [bind_error hx]
    exact h
  · rw [bind_ok hx]
    exact List.subset_append_of_subset_left _ h

theorem of_bind {f : α → Traced γ} {a : α} (hx : x.outcome = .ok a) (h : (f a).Includes y) :
    (x >>= f).Includes y := by
  rw [bind_ok hx]
  exact List.subset_append_of_subset_right _ h

theorem touches (h : x.Includes y) (hy : y.touches pending) : x.touches pending := by
  obtain ⟨s, hs, q, hq, htouches⟩ := touches_iff.1 hy
  exact touches_iff.2 ⟨s, h hs, q, hq, htouches⟩

end Includes

end Traced

theorem View.sightings_toValue (view : View) :
    view.toValue.sightings = sightingsOf view.nodes true := by
  cases view with
  | single value => cases value <;> rfl
  | many items => rfl

/-! ### Steps of a lookup -/

/-- More steps go on from what the steps before them lead to. -/
theorem evaluateSteps_append (c : Context) (isTracked : Bool) (view : View)
    (steps more : List Step) :
    evaluateSteps c isTracked view (steps ++ more) =
      evaluateSteps c isTracked view steps >>= fun next => evaluateSteps c isTracked next more := by
  induction steps generalizing view with
  | nil => rw [List.nil_append, evaluateSteps, pure_bind]
  | cons step steps ih =>
    rw [List.cons_append, evaluateSteps, evaluateSteps]
    simp only [ih, bind_assoc]

/-- What a lookup begins with, as it goes on from there. -/
def Start.enter (c : Context) (start : Start) : Traced View := do
  Traced.see (unnoticed true (start.searched c) false)
  let first ← Traced.ofExcept (start.resolve c)
  pure (.ofValue (.root c.document.id) first)

namespace Chain

/-- Whether a chain is noticed itself. One that begins with a computed value is not. -/
def isTracked : Chain → Bool
  | qualifier _ _ | lookup _ _ _ => true
  | follow _ _ _ => false

/-- What a chain leads to. -/
def reach (c : Context) : Chain → Traced View
  | qualifier q _ => q.start.enter c
  | lookup start steps _ => do
    let view ← start.enter c
    evaluateSteps c true view steps
  | follow base steps _ => do
    let first ← evaluate c base
    evaluateSteps c false (.ofValue (.root c.document.id) first) steps

/-- What a chain leads to when it is stepped through. -/
def passed (c : Context) (chain : Chain) : Traced View := do
  let view ← chain.reach c
  Traced.see (if chain.isTracked then sightingsOf view.nodes false else [])
  pure view

variable {c : Context} {chain : Chain} {pending : List Path}

theorem outcome_passed (c : Context) (chain : Chain) :
    (chain.passed c).outcome = (chain.reach c).outcome := by
  rw [passed]
  rcases hreach : (chain.reach c).outcome with fault | view
  · rw [Traced.bind_error hreach]
  · rw [Traced.bind_ok hreach]
    rfl

/-- Stepping through a chain counts what it has reached, if the chain is noticed. -/
theorem touches_passed_iff : (chain.passed c).touches pending ↔
    (chain.reach c).touches pending ∨ chain.isTracked ∧ ∃ view,
      (chain.reach c).outcome = .ok view ∧ ∃ n ∈ view.nodes, n.path.LiesIn pending := by
  rw [passed, Traced.touches_bind_iff]
  refine or_congr_right ?_
  simp only [Traced.touches_see_bind_iff, Traced.touches_pure, Bool.false_eq_true, or_false]
  cases chain.isTracked
  · simp [Traced.touches, Traced.see]
  · simp [Traced.touches_passed_iff]

theorem formula_extend_follow (base : Formula) (steps : List Step) (p : Position)
    {more : List Step} (hne : more ≠ []) :
    (extend more (.follow base steps p)).formula = .follow base (steps ++ more) p := by
  rw [extend]
  rcases hcons : steps ++ more with _ | ⟨step, rest⟩
  · exact absurd (List.append_eq_nil_iff.1 hcons).2 hne
  · rfl

/-- A chain with more steps is evaluated from what it leads to without them, and read at its end. -/
theorem evaluate_extend (c : Context) (chain : Chain) {more : List Step} (hne : more ≠ []) :
    evaluate c (chain.extend more).formula = (do
      let view ← chain.reach c
      let last ← evaluateSteps c chain.isTracked view more
      Traced.see (if chain.isTracked then sightingsOf last.nodes true else [])
      pure last.toValue) := by
  have hlookup : ∀ start steps p, steps ≠ [] → evaluate c (.lookup start steps p) = (do
      let view ← start.enter c
      let last ← evaluateSteps c true view steps
      Traced.see (sightingsOf last.nodes true)
      pure last.toValue) := by
    intro start steps p hsteps
    rw [evaluate, Start.enter]
    simp only [List.isEmpty_iff, hsteps, if_false, View.sightings_toValue, bind_assoc, pure_bind]
  cases chain with
  | qualifier q p => exact hlookup q.start more p hne
  | lookup start steps p =>
    rw [extend, formula, hlookup start _ p (by simp [hne]), reach, isTracked]
    simp only [evaluateSteps_append, bind_assoc, if_true]
  | follow base steps p =>
    have hsteps : (steps ++ more).isEmpty = false := by simp [hne]
    rw [formula_extend_follow base steps p hne, evaluate, reach, isTracked]
    simp only [hsteps, evaluateSteps_append, bind_assoc, Bool.false_eq_true, if_false]
    rfl

/-- A step goes on from a chain that it steps through. -/
theorem evaluate_extend_cons (c : Context) (chain : Chain) (step : Step) (more : List Step) :
    evaluate c (chain.extend (step :: more)).formula = (do
      let view ← chain.passed c
      let next ← evaluateStep c chain.isTracked view step
      let last ← evaluateSteps c chain.isTracked next more
      Traced.see (if chain.isTracked then sightingsOf last.nodes true else [])
      pure last.toValue) := by
  rw [evaluate_extend c chain (List.cons_ne_nil step more), passed]
  simp only [evaluateSteps, bind_assoc, pure_bind]

/-- What is noticed when a chain is stepped through is noticed when it goes on. -/
theorem touches_of_passed {step : Step} {more : List Step} (h : (chain.passed c).touches pending) :
    (evaluate c (chain.extend (step :: more)).formula).touches pending := by
  rw [evaluate_extend_cons, Traced.touches_bind_iff]
  exact .inl h

end Chain

end DocQuery
