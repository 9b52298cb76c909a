/-
Computed values that are stored in documents.

* `Value.Storable` — the scalars that keep their sort in a document: `null`, truth values, texts,
  and numbers whose text reads back as the same number;
* `Value.ActsLike` — values that no operator tells apart;
* `Value.SharesAtom.actsLike` — which is decided by their atoms, their sorts, and whether they are
  missing;
* `storing_is_transparent` — a storable value acts the same when it is stored, and when it is copied
  from there.

Design notes: all operators look at a value through its atom, and name it by its sort in their
faults. A number is stored as its text, which is read again at every use. The text of a negative
zero has no sign, so what is read is the other zero, which equals it; everything else is read as
exactly the number that was stored.
-/
import DocQuery.Proofs.Value.Comparing

namespace DocQuery

open Time (Moment)

/-! ### Values that act alike -/

/-- Whether `y` is the number `x`, perhaps without the sign of a zero. -/
def Number.IsCopy (x y : Float) : Prop := y = x ∨ x = -0 ∧ y = 0

/-- Whether the number `x` that `v` gives may become `y`. It may not, unless `v` is the negative
zero. -/
def Value.Keeps (v : Value) (x y : Float) : Prop := y = x ∨ v = .number (-0) ∧ x = -0 ∧ y = 0

/-- Whether two atoms are the same, or numbers in the relation `R`. -/
inductive Atom.IsCopy (R : Float → Float → Prop) : Atom → Atom → Prop
  | refl (a : Atom) : IsCopy R a a
  | number {x y : Float} : R x y → IsCopy R (.number x) (.number y)

/-- Whether two values are the same, or numbers in the relation `R`. -/
inductive Value.IsCopy (R : Float → Float → Prop) : Value → Value → Prop
  | refl (v : Value) : IsCopy R v v
  | number {x y : Float} : R x y → IsCopy R (.number x) (.number y)

theorem Value.IsCopy.eq {v w : Value} (h : IsCopy Eq v w) : w = v := by
  cases h with
  | refl => rfl
  | number hxy => rw [hxy]

/-- Whether two outcomes are related results, or the same fault. -/
inductive Outcome.Alike {α : Type} (R : α → α → Prop) : Except Fault α → Except Fault α → Prop
  | ok {a b : α} : R a b → Alike R (.ok a) (.ok b)
  | error (fault : Fault) : Alike R (.error fault) (.error fault)

/-- Whether no operator tells `w` from `v`: it is the same scalar of the same sort, converts to the
same values or fails to with the same faults, and compares in the same way with every value. -/
structure Value.ActsLike (v w : Value) : Prop where
  atom? : Option.Rel (Atom.IsCopy v.Keeps) v.atom? w.atom?
  isMissing : w.isMissing = v.isMissing
  sort : w.sort = v.sort
  toBoolean (p : Position) : w.toBoolean p = v.toBoolean p
  toNumber (p : Position) : Outcome.Alike v.Keeps (v.toNumber p) (w.toNumber p)
  toText (p : Position) : w.toText p = v.toText p
  toMoment (options : Options) (p : Position) : w.toMoment options p = v.toMoment options p
  convert? (options : Options) (type : ScalarType) :
    Option.Rel (Value.IsCopy v.Keeps) (v.convert? options type) (w.convert? options type)
  display (p : Position) : w.display p = v.display p
  same_left (options : Options) (u : Value) : w.same options u = v.same options u
  same_right (options : Options) (u : Value) : u.same options w = u.same options v
  order_left (options : Options) (p : Position) (u : Value) :
    w.order options p u = v.order options p u
  order_right (options : Options) (p : Position) (u : Value) :
    u.order options p w = u.order options p v

/-! ### Zeros -/

namespace Number

variable {x y : Float}

/-- The sign of a zero is nothing to its order. -/
theorem order?_neg_zero (z : Float) : order? (-0) z = order? 0 z := by
  rw [order?_eq, order?_eq, Decoded.compare?, Decoded.compare?, ← unpack_toModel, ← unpack_toModel]
  cases z.toModel.unpack with
  | notANumber => rfl
  | infinity s | zero s | finite s => cases s <;> rfl

theorem IsCopy.order?_eq (h : IsCopy x y) (z : Float) : order? y z = order? x z := by
  rcases h with rfl | ⟨rfl, rfl⟩
  · rfl
  · exact (order?_neg_zero z).symm

/-- Zeros of either sign are written as zero. -/
theorem display_zero (h : x = 0 ∨ x = -0) : display x = "0" := by
  rcases h with rfl | rfl <;> decide +kernel

theorem IsCopy.display_eq (h : IsCopy x y) : display y = display x := by
  rcases h with rfl | ⟨rfl, rfl⟩
  · rfl
  · rw [display_zero (.inl rfl), display_zero (.inr rfl)]

/-- What the text of a number reads as is a copy of the number, if it equals it. -/
theorem isCopy_of_reads (hread : readNumber? (display x).toList = some y)
    (hsame : y = x ∨ (y == x) = true) : IsCopy x y := by
  have hzero : readNumber? "0".toList = some 0 := rfl
  rcases hsame with rfl | hbeq
  · exact .inl rfl
  · -- the text of a zero is read as the zero without a sign
    obtain ⟨-, -, rfl | ⟨rfl, rfl⟩ | ⟨rfl, rfl⟩⟩ := Float.beq_iff_ne_nan_and_eq.1 hbeq
    · exact .inl rfl
    · exact .inr ⟨rfl, rfl⟩
    · rw [display_zero (.inl rfl), hzero, Option.some.injEq] at hread
      exact .inl hread.symm

end Number

/-! ### What operators look at -/

theorem Number.IsCopy.order?_left {x y : Float} (h : IsCopy x y) (options : Options) (c : Atom) :
    (Atom.number y).order? options c = (Atom.number x).order? options c := by
  cases c with
  | number z => exact h.order?_eq z
  | text t =>
    rw [Atom.order?, Atom.order?]
    cases numberInText? t with
    | none => rfl
    | some z => exact h.order?_eq z
  | boolean | moment => rfl

theorem Number.IsCopy.order?_right {x y : Float} (h : IsCopy x y) (options : Options) (c : Atom) :
    c.order? options (.number y) = c.order? options (.number x) := by
  rw [Atom.order?_swap options (.number y), Atom.order?_swap options (.number x), h.order?_left]

namespace Value

/-- Whether two values are one atom or none, or the first is a number that the second is a copy
of. -/
def SharesAtom (v w : Value) : Prop :=
  w.atom? = v.atom? ∨ ∃ x y, v = .number x ∧ w.atom? = some (.number y) ∧ Number.IsCopy x y

section Operators

variable {v w : Value}

theorem atom?_number (x : Float) : (Value.number x).atom? = some (.number x) := rfl

theorem keeps_of_isCopy {x y : Float} (h : Number.IsCopy x y) : (Value.number x).Keeps x y := by
  rcases h with rfl | ⟨rfl, rfl⟩
  · exact .inl rfl
  · exact .inr ⟨rfl, rfl, rfl⟩

theorem SharesAtom.atom?_rel (h : v.SharesAtom w) :
    Option.Rel (Atom.IsCopy v.Keeps) v.atom? w.atom? := by
  rcases h with h | ⟨x, y, rfl, hy, hcopy⟩
  · rw [h]
    cases v.atom? with
    | none => exact .none
    | some a => exact .some (.refl a)
  · rw [hy]
    exact .some (.number (keeps_of_isCopy hcopy))

variable (hatom : v.SharesAtom w) (hsort : w.sort = v.sort)
include hatom hsort

theorem SharesAtom.toBoolean_eq (p : Position) : w.toBoolean p = v.toBoolean p := by
  rw [toBoolean, toBoolean, mismatch, mismatch, hsort]
  rcases hatom with h | ⟨x, y, rfl, hy, -⟩
  · rw [h]
  · rw [hy, atom?_number]

theorem SharesAtom.toNumber_alike (p : Position) :
    Outcome.Alike v.Keeps (v.toNumber p) (w.toNumber p) := by
  rcases hatom with h | ⟨x, y, rfl, hy, hcopy⟩
  · have hequal : w.toNumber p = v.toNumber p := by
      rw [toNumber, toNumber, mismatch, mismatch, hsort, h]
    rw [hequal]
    cases v.toNumber p with
    | error fault => exact .error fault
    | ok x => exact .ok (.inl rfl)
  · rw [toNumber, toNumber, hy]
    exact .ok (keeps_of_isCopy hcopy)

theorem SharesAtom.toText_eq (p : Position) : w.toText p = v.toText p := by
  rw [toText, toText, mismatch, mismatch, hsort]
  rcases hatom with h | ⟨x, y, rfl, hy, hcopy⟩
  · rw [h]
  · rw [hy, atom?_number]
    exact congrArg Except.ok hcopy.display_eq

theorem SharesAtom.toMoment_eq (options : Options) (p : Position) :
    w.toMoment options p = v.toMoment options p := by
  rw [toMoment, toMoment, mismatch, mismatch, hsort]
  rcases hatom with h | ⟨x, y, rfl, hy, -⟩
  · rw [h]
  · rw [hy, atom?_number]

theorem SharesAtom.convert?_rel (options : Options) (type : ScalarType) :
    Option.Rel (Value.IsCopy v.Keeps) (v.convert? options type) (w.convert? options type) := by
  have hrefl (found : Option Value) : Option.Rel (Value.IsCopy v.Keeps) found found := by
    cases found with
    | none => exact .none
    | some u => exact .some (.refl u)
  rw [convert?, convert?]
  cases type with
  | boolean =>
    rw [expect, expect, hatom.toBoolean_eq hsort]
    exact hrefl _
  | number =>
    rw [expect, expect]
    have halike := hatom.toNumber_alike hsort .start
    generalize v.toNumber .start = a at halike ⊢
    generalize w.toNumber .start = b at halike ⊢
    cases halike with
    | ok hcopy => exact .some (.number hcopy)
    | error => exact .none
  | text =>
    rw [expect, expect, hatom.toText_eq hsort]
    exact hrefl _
  | moment =>
    rw [expect, expect, hatom.toMoment_eq hsort]
    exact hrefl _

theorem SharesAtom.order_left (options : Options) (p : Position) (u : Value) :
    w.order options p u = v.order options p u := by
  rw [order, order, hsort]
  rcases hatom with h | ⟨x, y, rfl, hy, hcopy⟩
  · rw [h]
  · rw [hy, atom?_number]
    cases u.atom? with
    | none => rfl
    | some c => simp only [hcopy.order?_left]

theorem SharesAtom.order_right (options : Options) (p : Position) (u : Value) :
    u.order options p w = u.order options p v := by
  rw [order, order, hsort]
  rcases hatom with h | ⟨x, y, rfl, hy, hcopy⟩
  · rw [h]
  · rw [hy, atom?_number]
    cases u.atom? with
    | none => rfl
    | some c => simp only [hcopy.order?_right]

omit hsort in
theorem SharesAtom.same_left (hmissing : w.isMissing = v.isMissing)
    (hnone : v.atom? = none → v.isMissing) (options : Options) (u : Value) :
    w.same options u = v.same options u := by
  rw [same, same, hmissing]
  rcases hatom with h | ⟨x, y, rfl, hy, hcopy⟩
  · cases hv : v.atom? with
    -- what has no atom is missing, so its form is not looked at
    | none => rw [hnone hv, Bool.true_or, if_pos rfl, if_pos rfl]
    | some a =>
      rw [h, hv]
      cases u.atom? <;> rfl
  · rw [hy, atom?_number]
    cases u.atom? with
    | none => rfl
    | some c => simp only [hcopy.order?_left]

omit hsort in
theorem SharesAtom.display_eq {a : Atom} (ha : v.atom? = some a) (p : Position) :
    w.display p = v.display p := by
  rw [display, display]
  rcases hatom with h | ⟨x, y, rfl, hy, hcopy⟩
  · rw [h, ha]
  · rw [hy, atom?_number]
    exact congrArg Except.ok hcopy.display_eq

/-- Operators look at a value through its atom, whether it is missing, and name it by its sort. Only
what is neither an atom nor missing has a form that is looked at. -/
theorem SharesAtom.actsLike (hmissing : w.isMissing = v.isMissing)
    (hnone : v.atom? = none → v.isMissing ∧ ∀ p, w.display p = v.display p) : v.ActsLike w where
  atom? := hatom.atom?_rel
  isMissing := hmissing
  sort := hsort
  toBoolean := hatom.toBoolean_eq hsort
  toNumber := hatom.toNumber_alike hsort
  toText := hatom.toText_eq hsort
  toMoment := hatom.toMoment_eq hsort
  convert? := hatom.convert?_rel hsort
  display p := by
    cases ha : v.atom? with
    | none => exact (hnone ha).2 p
    | some a => exact hatom.display_eq ha p
  same_left := hatom.same_left hmissing fun h => (hnone h).1
  same_right options u := by
    rw [same_comm options u w, same_comm options u v,
      hatom.same_left hmissing fun h => (hnone h).1]
  order_left := hatom.order_left hsort
  order_right := hatom.order_right hsort

end Operators

/-! ### Values in documents -/

/-- The scalars that keep their sort in a document: `null`, truth values, texts, and numbers whose
text reads back as the number itself, or as one that equals it. -/
inductive Storable : Value → Prop
  | null : Storable .null
  | boolean (b : Bool) : Storable (.boolean b)
  | text (s : String) : Storable (.text s)
  | number {x y : Float} : Number.readNumber? (Number.display x).toList = some y →
    y = x ∨ (y == x) = true → Storable (.number x)

/-- The text of a number that reads back is no word of JSON. -/
theorem bare_of_reads {text : String} {y : Float} (h : Number.readNumber? text.toList = some y) :
    (Scalar.bare text).isNull = false ∧ (Scalar.bare text).boolean? = none ∧
      (Scalar.bare text).number? = some y := by
  have hword (word : String) (hword : Number.readNumber? word.toList = none) :
      Scalar.bare text ≠ Scalar.bare word := by
    intro heq
    obtain rfl : text = word := congrArg Scalar.text heq
    rw [h] at hword
    cases hword
  have hnull : (Scalar.bare text).isNull = false := decide_eq_false (hword "null" rfl)
  have hboolean : (Scalar.bare text).boolean? = none := by
    rw [Scalar.boolean?, if_neg (show Scalar.bare text ≠ .ofBool true from hword "true" rfl),
      if_neg (show Scalar.bare text ≠ .ofBool false from hword "false" rfl)]
  refine ⟨hnull, hboolean, ?_⟩
  rw [Scalar.number?, hnull, hboolean]
  exact h

/-- A storable value is stored as a scalar, wherever it is placed, and acts the same as that. -/
theorem Storable.exists_scalar {v : Value} (h : v.Storable) :
    ∃ s, (∀ path, v.toNode? path = some (.scalar (.at path) s)) ∧
      ∀ p, v.ActsLike (.node (.scalar p s)) := by
  cases h with
  | null =>
    refine ⟨.null, fun path => rfl, fun p => ?_⟩
    have hatom : Value.null.SharesAtom (.node (.scalar p .null)) := .inl rfl
    exact hatom.actsLike rfl rfl fun _ => ⟨rfl, fun _ => rfl⟩
  | boolean b =>
    refine ⟨.ofBool b, fun path => rfl, fun p => ?_⟩
    have hatom : (Value.boolean b).SharesAtom (.node (.scalar p (.ofBool b))) :=
      .inl (by cases b <;> rfl)
    exact hatom.actsLike (by cases b <;> rfl) (by cases b <;> rfl) fun h => by cases h
  | text s =>
    refine ⟨.quoted s, fun path => rfl, fun p => ?_⟩
    have hnull : (Scalar.quoted s).isNull = false :=
      decide_eq_false fun heq => by cases heq
    have hatom : (Value.text s).SharesAtom (.node (.scalar p (.quoted s))) := .inl rfl
    refine hatom.actsLike ?sort hnull fun h => by cases h
    case sort =>
      show Node.sort (.scalar p (.quoted s)) = .text
      rw [Node.sort, hnull]
      rfl
  | @number x y hread hsame =>
    refine ⟨.bare (Number.display x), fun path => rfl, fun p => ?_⟩
    obtain ⟨hnull, hboolean, hnumber⟩ := bare_of_reads hread
    have hatom : (Value.number x).SharesAtom (.node (.scalar p (.bare (Number.display x)))) := by
      refine .inr ⟨x, y, rfl, ?_, Number.isCopy_of_reads hread hsame⟩
      show Scalar.atom? (.bare (Number.display x)) = some (.number y)
      rw [Scalar.atom?, hboolean, hnumber]
      rfl
    refine hatom.actsLike ?sort hnull fun h => by cases h
    case sort =>
      show Node.sort (.scalar p (.bare (Number.display x))) = .number
      rw [Node.sort, hnull, hboolean]
      rfl

end Value

/-- A scalar that is stored in a document acts as it did before: it is the same value of the same
sort to every operator, it converts to the same values, or fails to with the same faults, and it
compares in the same way with every value on either side. So does every copy of it, in whatever
place of whatever document. Only the sign of a zero may be lost. -/
theorem storing_is_transparent {v : Value} (hv : v.Storable) (path : Path) :
    ∃ n, v.toNode? path = some n ∧ v.ActsLike (.node n) ∧
      ∀ path', v.ActsLike (.node (n.copiedTo path')) := by
  obtain ⟨s, hplaced, hacts⟩ := hv.exists_scalar
  exact ⟨_, hplaced path, hacts _, fun path' => hacts _⟩

theorem storing_is_transparent_fraction :
    (Value.number 0.5).Storable ∧
    ∃ n, (Value.number 0.5).toNode? (.root "D") = some n ∧
      (Value.number 0.5).ActsLike (.node n) ∧
      (Value.number 0.5).ActsLike (.node (n.copiedTo (.root "E"))) := by
  have hdisplay : Number.display 0.5 = "0.5" := by decide +kernel
  have hstorable : (Value.number 0.5).Storable :=
    .number (by rw [hdisplay]; rfl) (.inl rfl)
  obtain ⟨n, hn, hacts, hcopies⟩ := storing_is_transparent hstorable (.root "D")
  exact ⟨hstorable, n, hn, hacts, hcopies _⟩

end DocQuery
