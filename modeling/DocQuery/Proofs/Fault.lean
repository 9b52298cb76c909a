/-
Faults that are not the fault of the library.

* `Fault.IsOrdinary` — a text is malformed, or an expression has no value;
* `Outcome.IsSound` — a computation that ends with a result or with such a fault.

Design notes: a computation of several steps ends with the first fault of one of them, so it is sound
when each of its steps is, whatever the results of the others are.
-/
import DocQuery.Fault

namespace DocQuery

/-- Whether a fault is not one of the library. -/
def Fault.IsOrdinary : Fault → Prop
  | .malformed _ _ | .failed _ _ => True
  | .broken _ => False

/-- Whether a result is there, or a fault that is not one of the library. -/
def Outcome.IsSound {α : Type} (x : Except Fault α) : Prop :=
  ∀ fault, x = .error fault → fault.IsOrdinary

namespace Outcome

variable {α β : Type}

theorem isSound_ok (a : α) : IsSound (.ok a) := nofun

theorem isSound_failed (problem : EvaluationProblem) (p : Position) :
    IsSound (.error (.failed problem p) : Except Fault α) := by
  intro fault h
  obtain rfl := Except.error.inj h
  trivial

theorem isSound_malformed (problem : SyntaxProblem) (p : Position) :
    IsSound (.error (.malformed problem p) : Except Fault α) := by
  intro fault h
  obtain rfl := Except.error.inj h
  trivial

theorem IsSound.bind {x : Except Fault α} {f : α → Except Fault β} (hx : IsSound x)
    (hf : ∀ a, IsSound (f a)) : IsSound (x >>= f) := by
  rcases x with fault | a
  · intro fault' h
    obtain rfl := Except.error.inj h
    exact hx fault rfl
  · exact hf a

theorem IsSound.map {x : Except Fault α} (hx : IsSound x) (f : α → β) : IsSound (x.map f) := by
  rcases x with fault | a
  · intro fault' h
    obtain rfl := Except.error.inj h
    exact hx fault rfl
  · exact isSound_ok _

end Outcome

end DocQuery
