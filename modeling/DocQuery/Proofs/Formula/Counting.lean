/-
Positions of items.

* `Value.toBoolean_congr`, `Value.toNumber_congr` — a value counts as the same truth value or number
  wherever one is expected;
* `Operand.wholeNumber_eq_ok_iff` — the indexes that count anything are the numbers without a
  fraction;
* `Operand.index_eq_ok`, `Operand.indexOfAt_eq` — the position that an index gives, and that it
  is the same for an argument of `At`;
* `evaluateAt_cons` — the positions of `At` count as those behind a name do.

Design notes: an index behind a name is tested for being at least zero, an argument of `At` for
being less. For a double that is no number both tests fail; what is asked for a position has been
found to be whole before, and of whole numbers exactly one of the tests holds.
-/
import DocQuery.Formula.Evaluate
import DocQuery.Proofs.Outcome
import DocQuery.Proofs.Value.Doubles

namespace DocQuery

namespace Value

variable {v w : Value} {p q : Position} {x : Float} {b : Bool}

/-- Values of one atom are the same truth value, wherever one is expected. -/
theorem toBoolean_congr (h : v.atom? = w.atom?) :
    v.toBoolean p = .ok b ↔ w.toBoolean q = .ok b := by
  rw [toBoolean, toBoolean, h]
  split <;> simp

/-- Values of one atom are the same number, wherever one is expected. -/
theorem toNumber_congr (h : v.atom? = w.atom?) : v.toNumber p = .ok x ↔ w.toNumber q = .ok x := by
  rw [toNumber, toNumber, h]
  split <;> simp

end Value

namespace Operand

variable {a : Operand} {x : Float}

/-- The indexes that count anything are the numbers without a fraction. -/
theorem wholeNumber_eq_ok_iff :
    a.wholeNumber = .ok x ↔ a.number = .ok x ∧ Number.isIntegral x := by
  rw [wholeNumber, Except.bind_eq_ok_iff]
  constructor
  · rintro ⟨y, hy, h⟩
    cases hwhole : Number.isIntegral y with
    | false => simp [hwhole] at h
    | true =>
      rw [if_neg (by simp [hwhole]), Except.ok.injEq] at h
      exact ⟨h ▸ hy, h ▸ hwhole⟩
  · rintro ⟨hx, hwhole⟩
    exact ⟨x, hx, by simp [hwhole]⟩

/-- The position that an index gives is its whole part, unless that is negative. -/
theorem index_eq_ok (h : a.wholeNumber = .ok x) :
    a.index = .ok (Number.integerPart x).toNat? := by
  have hwhole := (wholeNumber_eq_ok_iff.mp h).2
  rw [index, h]
  show Except.ok _ = Except.ok _
  congr 1
  simp only [Number.zero_le_iff_not_lt hwhole, Number.lt_zero_iff hwhole]
  cases hi : Number.integerPart x with
  | ofNat n => simp [Int.toNat?]
  | negSucc n => simp [Int.toNat?, Int.negSucc_lt_zero]

/-- An argument of `At` gives the same position as an index behind a name. -/
theorem indexOfAt_eq (a : Operand) : a.indexOfAt = a.index := by
  rw [index, indexOfAt]
  cases h : a.wholeNumber with
  | error fault => rfl
  | ok x =>
    show Except.ok _ = Except.ok _
    simp only [Number.zero_le_iff_not_lt (wholeNumber_eq_ok_iff.mp h).2, ite_not]

end Operand

/-- The positions of `At` count as those behind a name do. -/
theorem evaluateAt_cons (c : Context) (isTracked : Bool) (items : List Node) (found : Option Node)
    (f : Formula) (fs : List Formula) :
    evaluateAt c isTracked items found (f :: fs) = (do
      let v ← evaluate c f
      let index ← Traced.ofExcept (Operand.index ⟨v, f.position⟩)
      Traced.see (unnoticed isTracked ((View.many items).counted index) false)
      match index.bind fun i => items[i]? with
      | none => pure none
      | some n => evaluateAt c isTracked (n.items?.getD []) (some n) fs) := by
  rw [evaluateAt]
  refine bind_congr fun v => ?_
  exact congrArg (Traced.ofExcept · >>= _) (Operand.indexOfAt_eq _)

end DocQuery
