/-
Comparisons that fit together.

* `Atom.order?_swap` — the order of two atoms the other way round is the opposite one, whatever
  their sorts are;
* `Json.same_comm`, `Node.same_toJson_self` — equality of forms is symmetric, and every value of a
  document has the form of itself;
* `Value.isMissing_of_atom?` — what has an order is no missing value;
* `comparisons_are_coherent` — equality and the four relations fit together.

Design notes: only atoms have an order, so what is said of it is said of two atoms first. Of all
atoms only a number that is none does not equal itself. Such a number is no numeral of JSON either:
a document holds it as a word, and words are compared as texts where forms are compared.
-/
import DocQuery.Formula.Function
import DocQuery.Proofs.Outcome
import DocQuery.Proofs.Value.Doubles

namespace DocQuery

open Time (Moment)

/-! ### The order of atoms -/

theorem orderOfTexts_swap (a b : String) : orderOfTexts b a = (orderOfTexts a b).swap :=
  show compare b a = (compare a b).swap from Std.OrientedCmp.eq_swap

theorem orderOfTexts_self (a : String) : orderOfTexts a a = .eq :=
  show compare a a = .eq from Std.ReflCmp.compare_self

theorem orderOfBooleans_swap (a b : Bool) : orderOfBooleans b a = (orderOfBooleans a b).swap := by
  cases a <;> cases b <;> rfl

namespace Time.Moment

theorem order_swap (a b : Moment) : b.order a = (a.order b).swap := by
  rw [order, order, Ordering.swap_then, ← Std.OrientedCmp.eq_swap, ← Std.OrientedCmp.eq_swap]

theorem order_self (a : Moment) : a.order a = .eq := by
  have hseconds : compare a.instant.1 a.instant.1 = .eq := Std.ReflCmp.compare_self
  have hrest : compare a.instant.2 a.instant.2 = .eq := Std.ReflCmp.compare_self
  rw [order, hseconds, hrest]
  rfl

end Time.Moment

/-- The order of two atoms the other way round is the opposite one. -/
theorem Atom.order?_swap (options : Options) (a b : Atom) :
    b.order? options a = (a.order? options b).map Ordering.swap := by
  cases a with
  | boolean x =>
    cases b with
    | boolean y => exact congrArg some (orderOfBooleans_swap x y)
    | number | text | moment => rfl
  | number x =>
    cases b with
    | number y => exact Number.order?_swap x y
    -- a text stands for the number it spells, on whichever side it is
    | text t =>
      rw [order?, order?]
      cases numberInText? t with
      | none => rfl
      | some y => exact Number.order?_swap x y
    | boolean | moment => rfl
  | text s =>
    cases b with
    | text t => exact congrArg some (orderOfTexts_swap s t)
    | number y =>
      rw [order?, order?]
      cases numberInText? s with
      | none => rfl
      | some x => exact Number.order?_swap x y
    | moment m =>
      rw [order?, order?]
      cases momentInText? options s with
      | none => rfl
      | some n => exact congrArg some (n.order_swap m)
    | boolean => rfl
  | moment m =>
    cases b with
    | moment n => exact congrArg some (m.order_swap n)
    | text t =>
      rw [order?, order?]
      cases momentInText? options t with
      | none => rfl
      | some n => exact congrArg some (m.order_swap n)
    | boolean | number => rfl

/-- Whether an atom is no number although it is of the sort of numbers. -/
def Atom.isNaN : Atom → Bool
  | number x => x.isNaN
  | boolean _ | text _ | moment _ => false

/-- An atom equals itself unless it is not a number. -/
theorem Atom.order?_self (options : Options) (a : Atom) :
    a.order? options a = if a.isNaN then none else some .eq := by
  cases a with
  | boolean x => cases x <;> rfl
  | number x => exact Number.order?_self x
  | text s => exact congrArg some (orderOfTexts_self s)
  | moment m => exact congrArg some m.order_self

/-! ### Equality of forms -/

theorem Numeral.same_comm (a b : Numeral) : a.same b = b.same a := by
  cases a <;> cases b
  · exact BEq.comm
  · rfl
  · rfl
  · exact BEq.comm

namespace Json

mutual

theorem same_comm (a b : Json) : a.same b = b.same a := by
  cases a with
  | null => cases b <;> rfl
  | boolean x =>
    cases b with
    | boolean y => exact BEq.comm
    | _ => rfl
  | number x =>
    cases b with
    | number y => exact x.same_comm y
    | _ => rfl
  | text s =>
    cases b with
    | text t => exact BEq.comm
    | _ => rfl
  | array as =>
    cases b with
    | array bs => exact sameItems_comm as bs
    | _ => rfl
  | object as =>
    cases b with
    | object bs => exact sameMembers_comm as bs
    | _ => rfl

theorem sameItems_comm (as bs : List Json) : sameItems as bs = sameItems bs as := by
  match as, bs with
  | [], [] | [], _ :: _ | _ :: _, [] => rfl
  | a :: as, b :: bs => rw [sameItems, sameItems, same_comm a b, sameItems_comm as bs]

theorem sameMembers_comm (as bs : List (String × Json)) :
    sameMembers as bs = sameMembers bs as := by
  match as, bs with
  | [], [] | [], _ :: _ | _ :: _, [] => rfl
  | (n, a) :: as, (m, b) :: bs =>
    have hname : (n == m) = (m == n) := BEq.comm
    rw [sameMembers, sameMembers, same_comm a b, sameMembers_comm as bs, hname]

end

/-- Members have the form of themselves if their values have. -/
theorem sameMembers_self_iff {members : List (String × Json)} :
    sameMembers members members ↔ ∀ m ∈ members, m.2.same m.2 := by
  induction members with
  | nil => simp [sameMembers]
  | cons m members ih => simp [sameMembers, ih]

theorem mem_insertMember {name : String} {value : Json} {members : List (String × Json)}
    {m : String × Json} (h : m ∈ insertMember name value members) :
    m = (name, value) ∨ m ∈ members := by
  induction members with
  | nil => exact .inl (List.mem_singleton.1 h)
  | cons other members ih =>
    rw [insertMember] at h
    split at h
    · exact List.mem_cons.1 h
    · split at h
      · exact (List.mem_cons.1 h).imp_right (List.mem_cons_of_mem _)
      · rcases List.mem_cons.1 h with rfl | h
        · exact .inr List.mem_cons_self
        · exact (ih h).imp_right (List.mem_cons_of_mem _)

/-- An object has the form of itself if its members have. -/
theorem same_ofMembers_self {members : List (String × Json)} (h : ∀ m ∈ members, m.2.same m.2) :
    (ofMembers members).same (ofMembers members) := by
  have hsorted : ∀ sorted : List (String × Json), (∀ m ∈ sorted, m.2.same m.2) →
      ∀ m ∈ members.foldl (fun sorted member => insertMember member.1 member.2 sorted) sorted,
        m.2.same m.2 := by
    induction members with
    | nil => exact fun sorted hsorted => hsorted
    | cons member members ih =>
      intro sorted hsorted
      refine ih (fun m hm => h m (List.mem_cons_of_mem _ hm)) _ fun m hm => ?_
      rcases mem_insertMember hm with rfl | hm
      · exact h member List.mem_cons_self
      · exact hsorted m hm
  exact sameMembers_self_iff.2 (hsorted [] fun m hm => absurd hm List.not_mem_nil)

end Json

/-! ### Values of documents have the form of themselves -/

theorem Number.beq_self_of_isFinite {x : Float} (h : isFinite x) : (x == x) = true := by
  have hnumber : x.isNaN = false := by
    rw [Bool.eq_false_iff, ne_eq, isNaN_iff]
    intro hnan
    rw [isFinite, hnan] at h
    cases h
  have hself := order?_self x
  rw [hnumber] at hself
  rw [beq_iff, ← order?_eq]
  exact hself

namespace Numeral

theorem same_self_of_ofDouble? {x : Float} {a : Numeral} (h : ofDouble? x = some a) :
    a.same a := by
  rw [ofDouble?] at h
  split at h
  · rename_i hfinite
    cases h
    exact Number.beq_self_of_isFinite hfinite
  · cases h

theorem same_self_of_integer? {negative : Bool} {magnitude : Nat} {a : Numeral}
    (h : integer? negative magnitude = some a) : a.same a := by
  have hinteger : ∃ i, a = .integer i := by
    rw [integer?] at h
    split at h <;> split at h <;> cases h <;> exact ⟨_, rfl⟩
  obtain ⟨i, rfl⟩ := hinteger
  exact BEq.rfl

/-- A number that is read is finite, so it equals itself. -/
theorem same_self_of_read? {cs : List Char} {a : Numeral} (h : read? cs = some a) : a.same a := by
  unfold read? at h
  split at h
  simp only at h
  split at h
  · cases h
  · split at h
    · cases h
    · split at h
      · cases h
      · simp only [Option.orElse_eq_or] at h
        rcases Option.or_eq_some_iff.1 h with hexact | ⟨-, hdouble⟩
        · split at hexact
          · exact same_self_of_integer? hexact
          · cases hexact
        · exact same_self_of_ofDouble? hdouble

end Numeral

theorem Scalar.same_toJson_self (s : Scalar) : s.toJson.same s.toJson := by
  have hbare (text : String) : (bareJson text).same (bareJson text) := by
    rw [bareJson]
    split
    · rename_i numeral hread
      exact Numeral.same_self_of_read? hread
    · split
      · rename_i numeral hdouble
        obtain ⟨x, -, hx⟩ := Option.bind_eq_some_iff.1 hdouble
        exact Numeral.same_self_of_ofDouble? hx
      · exact BEq.rfl
  rw [toJson]
  split
  · exact BEq.rfl
  · split
    · rfl
    · split
      · exact BEq.rfl
      · exact hbare s.text

namespace Node

mutual

/-- A value of a document has the form of itself. -/
theorem same_toJson_self : (n : Node) → n.toJson.same n.toJson
  | object _ members => Json.same_ofMembers_self (same_membersToJson_self members)
  | array _ items => sameItems_itemsToJson_self items
  | scalar _ s => s.same_toJson_self

theorem same_membersToJson_self : (members : List (String × Node)) →
    ∀ m ∈ membersToJson members, m.2.same m.2
  | [] => fun _ hm => absurd hm List.not_mem_nil
  | (_, value) :: members =>
    List.forall_mem_cons.2 ⟨same_toJson_self value, same_membersToJson_self members⟩

theorem sameItems_itemsToJson_self : (items : List Node) →
    Json.sameItems (itemsToJson items) (itemsToJson items)
  | [] => rfl
  | value :: items =>
    Bool.and_eq_true_iff.2 ⟨same_toJson_self value, sameItems_itemsToJson_self items⟩

end

end Node

/-! ### Comparisons of values -/

theorem sameStructure_comm (a b : Option Json) : sameStructure a b = sameStructure b a := by
  cases a <;> cases b
  · rfl
  · rfl
  · rfl
  · exact Json.same_comm _ _

namespace Value

variable {options : Options} {a b : Value}

theorem sameStructure_self (a : Value) : sameStructure a.structure? a.structure? := by
  cases a with
  | node n => exact n.same_toJson_self
  | nodes ns => exact Node.sameItems_itemsToJson_self ns
  | _ => rfl

/-- What is an atom is no missing value. -/
theorem isMissing_of_atom? {x : Atom} (h : a.atom? = some x) : a.isMissing = false := by
  cases a with
  | node n =>
    cases n with
    | scalar p s =>
      show s.isNull = false
      rw [Bool.eq_false_iff]
      intro hnull
      rw [of_decide_eq_true hnull] at h
      cases h
    | object | array => cases h
  | undefined | null | nodes => cases h
  | boolean | number | text | moment => rfl

theorem same_comm (options : Options) (a b : Value) : a.same options b = b.same options a := by
  rw [same, same, Bool.or_comm, Bool.and_comm]
  split
  · rfl
  · cases a.atom? with
    | none =>
      cases b.atom? with
      | none => exact sameStructure_comm _ _
      | some y => rfl
    | some x =>
      cases b.atom? with
      | none => rfl
      | some y =>
        show decide _ = decide _
        rw [decide_eq_decide, Atom.order?_swap options x y]
        rcases x.order? options y with _ | o
        · rfl
        · cases o <;> simp

/-- A value equals itself unless it is not a number. -/
theorem same_self_iff (options : Options) (a : Value) :
    a.same options a ↔ ¬ ∃ x, a.atom? = some (.number x) ∧ x.isNaN := by
  rw [same, Bool.or_self, Bool.and_self]
  cases hatom : a.atom? with
  | none =>
    have hnumber : ¬ ∃ x, (none : Option Atom) = some (.number x) ∧ x.isNaN :=
      fun ⟨_, hx, _⟩ => nomatch hx
    split
    · rename_i hmissing
      exact iff_of_true hmissing hnumber
    · exact iff_of_true (sameStructure_self a) hnumber
  | some x =>
    rw [isMissing_of_atom? hatom]
    show decide (x.order? options x = some .eq) = true ↔ _
    rw [Atom.order?_self, decide_eq_true_iff]
    cases x with
    | number x =>
      show (if x.isNaN then none else some .eq) = some Ordering.eq ↔ _
      split
      · rename_i hnan
        exact iff_of_false (by simp) (not_not_intro ⟨x, rfl, hnan⟩)
      · rename_i hnumber
        exact iff_of_true rfl fun ⟨_, hx, hnan⟩ => by cases hx; exact hnumber hnan
    | boolean | text | moment => simp [Atom.isNaN]

theorem order_eq_ok_iff {position : Position} {o : Ordering} :
    a.order options position b = .ok o ↔
      ∃ x y, a.atom? = some x ∧ b.atom? = some y ∧ x.order? options y = some o := by
  rw [order]
  cases a.atom? with
  | none => simp
  | some x =>
    cases b.atom? with
    | none => simp
    | some y => cases hxy : x.order? options y <;> simp [hxy]

/-- Values that have an order are equal if the order is that of equal ones. -/
theorem same_of_order_eq_ok {position : Position} {o : Ordering}
    (h : a.order options position b = .ok o) : a.same options b = (o == .eq) := by
  obtain ⟨x, y, hx, hy, hxy⟩ := order_eq_ok_iff.1 h
  rw [same, isMissing_of_atom? hx, isMissing_of_atom? hy, hx, hy]
  show decide (x.order? options y = some .eq) = _
  rw [hxy]
  cases o <;> rfl

/-- The order of two values the other way round is the opposite one. -/
theorem order_swap {p q : Position} {o : Ordering} (h : a.order options p b = .ok o) :
    b.order options q a = .ok o.swap := by
  obtain ⟨x, y, hx, hy, hxy⟩ := order_eq_ok_iff.1 h
  exact order_eq_ok_iff.2 ⟨y, x, hy, hx, by rw [Atom.order?_swap options x y, hxy]; rfl⟩

end Value

/-- Equality and the four relations fit together, for all values and options. Equality does not
depend on the order of the operands, and every value equals itself unless it is not a number. Two
values have an order exactly if they have one the other way round, and then it is the opposite one.
Of two values that have an order, one is less, equal or greater, and no two of these; less or equal
and greater or equal are what their names say. Where two values have no order, all four relations
fail with the same fault. -/
theorem comparisons_are_coherent (options : Options) (p : Position) (a b : Operand) :
    let run := BinaryOperation.run options p a b
    a.value.same options b.value = b.value.same options a.value ∧
    (a.value.same options a.value ↔ ¬ ∃ x, a.value.atom? = some (.number x) ∧ x.isNaN) ∧
    (∀ q o, a.value.order options p b.value = .ok o ↔
      b.value.order options q a.value = .ok o.swap) ∧
    (∀ o, a.value.order options p b.value = .ok o → ∃ less equal greater : Bool,
      run (.relation .less) = .ok (.boolean less) ∧
      run .equal = .ok (.boolean equal) ∧
      run (.relation .greater) = .ok (.boolean greater) ∧
      [less, equal, greater].count true = 1 ∧
      run .unequal = .ok (.boolean !equal) ∧
      run (.relation .lessOrEqual) = .ok (.boolean (less || equal)) ∧
      run (.relation .greaterOrEqual) = .ok (.boolean (greater || equal))) ∧
    ∀ fault, a.value.order options p b.value = .error fault →
      ∀ r, run (.relation r) = .error fault := by
  refine ⟨Value.same_comm options _ _, Value.same_self_iff options _, ?swap, ?relations, ?faults⟩
  case swap =>
    intro q o
    refine ⟨Value.order_swap, fun h => ?_⟩
    rw [← o.swap_swap]
    exact Value.order_swap h
  case relations =>
    intro o h
    have hrelation (r : Relation) : BinaryOperation.run options p a b (.relation r) =
        .ok (.boolean (r.holds o)) := by
      rw [BinaryOperation.run, h]
      rfl
    refine ⟨o == .lt, o == .eq, o == .gt, hrelation _, ?_, hrelation _, ?_, ?_, ?_, ?_⟩
    · rw [BinaryOperation.run, Value.same_of_order_eq_ok h]
    · cases o <;> rfl
    · rw [BinaryOperation.run, Value.same_of_order_eq_ok h]
    · rw [hrelation]
      cases o <;> rfl
    · rw [hrelation]
      cases o <;> rfl
  case faults =>
    intro fault h r
    rw [BinaryOperation.run, h]
    rfl

end DocQuery
