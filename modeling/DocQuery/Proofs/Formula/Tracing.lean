/-
Evaluations one after the other.

* `Traced` is a lawful monad: what was seen is put together in the order of the evaluations;
* `Traced.outcome_bind_eq_ok_iff` — several evaluations give a result exactly when each of them
  does.
-/
import DocQuery.Formula.Traced
import DocQuery.Proofs.Outcome

namespace DocQuery.Traced

variable {α β : Type}

theorem bind_ok {x : Traced α} {f : α → Traced β} {a : α} (h : x.outcome = .ok a) :
    x >>= f = ⟨(f a).outcome, x.sightings ++ (f a).sightings⟩ := by
  show Traced.bind x f = _
  rw [Traced.bind, h]

theorem bind_error {x : Traced α} {f : α → Traced β} {fault : Fault}
    (h : x.outcome = .error fault) : x >>= f = ⟨.error fault, x.sightings⟩ := by
  show Traced.bind x f = _
  rw [Traced.bind, h]

instance : LawfulMonad Traced := by
  refine LawfulMonad.mk' Traced ?_ ?_ ?_
  · intro α x
    rcases x with ⟨fault | a, seen⟩
    · rfl
    · show Traced.mk (.ok a) (seen ++ []) = _
      rw [List.append_nil]
  · intro α β a f
    rfl
  · intro α β γ x f g
    rcases x with ⟨fault | a, seen⟩
    · rfl
    · rw [bind_ok (x := ⟨.ok a, seen⟩) rfl, bind_ok (x := ⟨.ok a, seen⟩) rfl]
      rcases hf : f a with ⟨fault | b, more⟩
      · rfl
      · rw [bind_ok rfl, bind_ok rfl, List.append_assoc]

theorem outcome_bind_eq_ok_iff {x : Traced α} {f : α → Traced β} {b : β} :
    (x >>= f).outcome = .ok b ↔ ∃ a, x.outcome = .ok a ∧ (f a).outcome = .ok b := by
  rcases hx : x.outcome with fault | a
  · rw [bind_error hx]
    simp
  · rw [bind_ok hx]
    simp

end DocQuery.Traced
