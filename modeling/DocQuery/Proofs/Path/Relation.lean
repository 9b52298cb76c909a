/-
How two paths lie to each other.

* `Path.commonLength_eq_iff`, `Path.areBeside_iff` — what the number of common keys says of two
  lists of keys;
* `Path.compare_eq_child_iff`, `Path.compare_eq_sibling_iff` and so on — each answer of a comparison
  by the keys of both paths;
* `Path.inside_iff`, `Path.around_iff` — the places inside of a path, and those around it;
* `PathRelation.swap`, `Path.compare_swap` — the comparison the other way round.

Design notes: a comparison only looks at three lengths, so each answer is first one of lengths, and
then one of prefixes. Nothing else needs to know how the common keys are counted.
-/
import Mathlib.Data.List.Infix
import DocQuery.Path

namespace DocQuery

/-- The relation of the second of two paths to the first one. -/
def PathRelation.swap : PathRelation → PathRelation
  | .child => .parent
  | .parent => .child
  | r => r

namespace Path

/-! ### Keys in common -/

section Keys

variable (a b : List Key)

theorem commonLength_comm : commonLength a b = commonLength b a := by
  induction a generalizing b with
  | nil => rcases b with _ | ⟨y, b⟩ <;> rfl
  | cons x a ih =>
    rcases b with _ | ⟨y, b⟩
    · rfl
    · rw [commonLength, commonLength, ih b]
      by_cases hxy : x = y
      · rw [if_pos hxy, if_pos hxy.symm]
      · rw [if_neg hxy, if_neg (Ne.symm hxy)]

/-- Two lists of keys share all of the first one if the other one begins with it. -/
theorem commonLength_eq_iff : commonLength a b = a.length ↔ a <+: b := by
  induction a generalizing b with
  | nil => simp [commonLength]
  | cons x a ih =>
    rcases b with _ | ⟨y, b⟩
    · simp [commonLength]
    · rw [commonLength, List.length_cons, List.cons_prefix_cons]
      by_cases hxy : x = y
      · rw [if_pos hxy, Nat.add_right_cancel_iff, ih b]
        exact ⟨fun h => ⟨hxy, h⟩, fun h => h.2⟩
      · rw [if_neg hxy]
        exact ⟨fun h => absurd h (by omega), fun h => absurd h.1 hxy⟩

theorem commonLength_eq_right_iff : commonLength a b = b.length ↔ b <+: a := by
  rw [commonLength_comm, commonLength_eq_iff]

/-- Whether two lists of keys are of one length and differ in the last key only. -/
def AreBeside (a b : List Key) : Prop :=
  ∃ keys x y, x ≠ y ∧ a = keys ++ [x] ∧ b = keys ++ [y]

/-- Two lists of keys of one length are beside each other if they share all keys but one. -/
theorem areBeside_iff :
    AreBeside a b ↔ a.length = b.length ∧ commonLength a b + 1 = a.length := by
  constructor
  · rintro ⟨keys, x, y, hne, rfl, rfl⟩
    refine ⟨by simp, ?_⟩
    induction keys with
    | nil => simp [commonLength, hne]
    | cons key keys ih =>
      rw [List.cons_append, List.cons_append, commonLength, if_pos rfl, ih, List.length_cons]
  · rintro ⟨hlength, hcommon⟩
    induction a generalizing b with
    | nil => cases hcommon
    | cons x a ih =>
      rcases b with _ | ⟨y, b⟩
      · cases hlength
      rw [commonLength] at hcommon
      rw [List.length_cons, List.length_cons] at hlength
      -- a difference in the first key is the last one, so nothing comes behind it
      by_cases hxy : x = y
      · subst hxy
        rw [if_pos rfl, List.length_cons] at hcommon
        obtain ⟨keys, x', y', hne, rfl, rfl⟩ := ih b (by omega) (by omega)
        exact ⟨x :: keys, x', y', hne, rfl, rfl⟩
      · rw [if_neg hxy, List.length_cons] at hcommon
        obtain rfl := List.eq_nil_of_length_eq_zero (l := a) (by omega)
        obtain rfl := List.eq_nil_of_length_eq_zero (l := b) (by omega)
        exact ⟨[], x, y, hxy, rfl, rfl⟩

end Keys

/-! ### The answers of a comparison -/

/-- A path is its document and its keys. -/
theorem eq_iff {p q : Path} : p = q ↔ p.document = q.document ∧ p.keys = q.keys := by
  obtain ⟨d, keys⟩ := p
  obtain ⟨d', keys'⟩ := q
  exact Path.mk.injEq d keys d' keys' ▸ Iff.rfl

section Answers

variable (p q : Path)

/-- The comparison the other way round. -/
theorem compare_swap : q.compare p = (p.compare q).swap := by
  rw [compare, compare, commonLength_comm q.keys]
  by_cases hdocument : p.document = q.document
  · rw [if_neg (not_not.2 hdocument), if_neg (not_not.2 hdocument.symm)]
    by_cases hlength : p.keys.length = q.keys.length
    · rw [if_pos hlength, if_pos hlength.symm, hlength]
      split_ifs <;> rfl
    · rw [if_neg hlength, if_neg (Ne.symm hlength)]
      split_ifs
      -- the keys in common cannot be all of two lists of different lengths
      · omega
      all_goals rfl
  · rw [if_pos hdocument, if_pos (Ne.symm hdocument)]
    rfl

theorem compare_eq_equal_iff : p.compare q = .equal ↔ p = q := by
  have hstart := commonLength_eq_iff p.keys q.keys
  constructor
  · intro h
    rw [compare] at h
    split_ifs at h with hdocument hlength hcommon
    exact eq_iff.2 ⟨not_not.1 hdocument, (hstart.1 hcommon).eq_of_length hlength⟩
  · rintro rfl
    have hcommon := hstart.2 (List.prefix_refl p.keys)
    rw [compare, if_neg (not_not.2 rfl), if_pos rfl, if_pos hcommon]

theorem compare_eq_child_iff : p.compare q = .child ↔
    p.document = q.document ∧ q.keys <+: p.keys ∧ q.keys ≠ p.keys := by
  have hstart := commonLength_eq_right_iff p.keys q.keys
  constructor
  · intro h
    rw [compare] at h
    split_ifs at h with hdocument hlength _ _ hcommon
    refine ⟨not_not.1 hdocument, hstart.1 hcommon, fun hkeys => hlength ?_⟩
    rw [hkeys]
  · rintro ⟨hdocument, hkeys, hne⟩
    have hlength : p.keys.length ≠ q.keys.length :=
      fun hlength => hne (hkeys.eq_of_length hlength.symm)
    rw [compare, if_neg (not_not.2 hdocument), if_neg hlength, if_pos (hstart.2 hkeys)]

theorem compare_eq_parent_iff : p.compare q = .parent ↔
    p.document = q.document ∧ p.keys <+: q.keys ∧ p.keys ≠ q.keys := by
  have hswap : p.compare q = .parent ↔ q.compare p = .child := by
    rw [compare_swap p q]
    cases p.compare q <;> decide
  rw [hswap, compare_eq_child_iff, eq_comm]

theorem compare_eq_sibling_iff : p.compare q = .sibling ↔
    p.document = q.document ∧ AreBeside p.keys q.keys := by
  rw [areBeside_iff]
  constructor
  · intro h
    rw [compare] at h
    split_ifs at h with hdocument hlength _ hbeside
    exact ⟨not_not.1 hdocument, hlength, hbeside⟩
  · rintro ⟨hdocument, hlength, hbeside⟩
    have hcommon : commonLength p.keys q.keys ≠ p.keys.length := by omega
    rw [compare, if_neg (not_not.2 hdocument), if_pos hlength, if_neg hcommon, if_pos hbeside]

/-- The places at a path and inside of it. -/
theorem inside_iff : p.document = q.document ∧ q.keys <+: p.keys ↔
    p.compare q = .equal ∨ p.compare q = .child := by
  rw [compare_eq_equal_iff, compare_eq_child_iff]
  constructor
  · rintro ⟨hdocument, hkeys⟩
    by_cases hequal : q.keys = p.keys
    · exact .inl (eq_iff.2 ⟨hdocument, hequal.symm⟩)
    · exact .inr ⟨hdocument, hkeys, hequal⟩
  · rintro (rfl | ⟨hdocument, hkeys, -⟩)
    · exact ⟨rfl, List.prefix_refl _⟩
    · exact ⟨hdocument, hkeys⟩

/-- The places at a path and around it. -/
theorem around_iff : p.document = q.document ∧ p.keys <+: q.keys ↔
    p.compare q = .equal ∨ p.compare q = .parent := by
  rw [eq_comm, inside_iff, compare_swap p q]
  cases p.compare q <;> decide

/-- Paths that lie to each other in none of the other ways are unrelated. -/
theorem compare_eq_unrelated_iff : p.compare q = .unrelated ↔
    p.document ≠ q.document ∨
      ¬ q.keys <+: p.keys ∧ ¬ p.keys <+: q.keys ∧ ¬ AreBeside p.keys q.keys := by
  rw [← not_iff_not]
  simp only [not_or, not_and_or, not_not, ne_eq, and_or_left, inside_iff, around_iff,
    ← compare_eq_sibling_iff]
  cases p.compare q <;> simp

end Answers

end Path

end DocQuery
