/-
The operator table of a language that operators are added to.

* `Language.operator?_withOperator` — what one addition does to the operators that are found;
* `Language.operator?_withOperators` — what is found after several additions;
* `Language.IsParted` — a symbol between two of whose operators another symbol as long stands;
* `Language.count_symbolOperators_eq_one_iff` — the lexer tries a symbol once, unless it is parted;
* `Language.withOperators_table` — the table and the symbols after any additions.

Design notes: the table is changed at one place, so what holds of it is carried through additions
from the front, the last of them on top. Symbols are sorted by a stable sort, and repeats are
dropped only where they are neighbours, so what stands between two operators of one name decides
whether the lexer has the name twice. Trying it twice takes nothing else from a text.
-/
import DocQuery.Proofs.Expr.Symbols
import Mathlib.Data.List.Destutter

namespace DocQuery

namespace Language

variable {l : Language} {name : String} {names words : List String}

/-! ### Additions -/

/-- What tells the operators of a table apart. -/
def place (o : Operator) : String × Fixity :=
  (o.name, o.fixity)

theorem nodup_withOperator (h : (l.operators.map place).Nodup) (o : Operator) :
    ((l.withOperator o).operators.map place).Nodup := by
  rw [withOperator, List.map_append, List.nodup_append]
  refine ⟨h.sublist (List.filter_sublist.map place), List.nodup_singleton _, ?_⟩
  -- no operator that is kept has the place of the new one
  intro kept hkept new hnew
  obtain ⟨p, hp, rfl⟩ := List.mem_map.1 hkept
  obtain rfl : new = place o := by simpa using hnew
  intro hsame
  obtain ⟨hname, hfixity⟩ := Prod.mk.inj hsame
  simp [hname, hfixity] at hp

/-- The new operator is found in its place, and in every other place what was found there before. -/
theorem operator?_withOperator (l : Language) (o : Operator) (name : String) (fixity : Fixity) :
    (l.withOperator o).operator? name fixity =
      if o.name = name ∧ o.fixity = fixity then some o else l.operator? name fixity := by
  rw [operator?, withOperator, List.find?_append, List.find?_filter]
  by_cases hplace : o.name = name ∧ o.fixity = fixity
  · -- nothing in this place is kept
    rw [if_pos hplace, ← hplace.1, ← hplace.2, List.find?_eq_none.2, Option.none_or]
    · simp
    · intro p _
      cases p.name == o.name && p.fixity == o.fixity <;> simp
  · have hnew : (o.name == name && o.fixity == fixity) = false := by simpa using hplace
    rw [if_neg hplace, List.find?_cons, hnew, List.find?_nil, Option.or_none, operator?]
    refine congrArg (List.find? · l.operators) (funext fun p => ?_)
    -- an operator of another place is kept
    by_cases hp : p.name = name ∧ p.fixity = fixity
    · have hold : (p.name == o.name && p.fixity == o.fixity) = false := by
        rw [hp.1, hp.2, Bool.eq_false_iff, ne_eq, Bool.and_eq_true, beq_iff_eq, beq_iff_eq]
        exact fun hsame => hplace ⟨hsame.1.symm, hsame.2.symm⟩
      simp only [hold, Bool.not_false, true_and, Bool.decide_eq_true]
    · have hother : (p.name == name && p.fixity == fixity) = false := by simpa using hp
      simp [hother]

theorem withOperators_concat (l : Language) (ops : List Operator) (o : Operator) :
    l.withOperators (ops ++ [o]) = (l.withOperators ops).withOperator o := by
  rw [withOperators, withOperators, List.foldl_append, List.foldl_cons, List.foldl_nil]

/-- No additions give a table two operators of one name and fixity. -/
theorem nodup_withOperators (h : (l.operators.map place).Nodup) (ops : List Operator) :
    ((l.withOperators ops).operators.map place).Nodup := by
  induction ops using List.reverseRecOn with
  | nil => exact h
  | append_singleton ops o ih =>
    rw [withOperators_concat]
    exact nodup_withOperator ih o

/-- What is found after some additions is what was added last, or what was there before. -/
theorem operator?_withOperators (l : Language) (ops : List Operator) (name : String)
    (fixity : Fixity) :
    (l.withOperators ops).operator? name fixity =
      (ops.reverse.find? fun o => o.name == name && o.fixity == fixity).or
        (l.operator? name fixity) := by
  induction ops using List.reverseRecOn with
  | nil => rfl
  | append_singleton ops o ih =>
    rw [withOperators_concat, operator?_withOperator, List.reverse_concat, List.find?_cons, ih]
    by_cases hplace : o.name = name ∧ o.fixity = fixity
    · simp [hplace]
    · have hnew : (o.name == name && o.fixity == fixity) = false := by simpa using hplace
      rw [if_neg hplace, hnew]

/-! ### Proper beginnings -/

/-- A symbol is tried before the symbols that it begins with. -/
theorem symbolOperators_pairwise_prefix (l : Language) :
    l.symbolOperators.Pairwise fun a b => ¬ (a.toList <+: b.toList ∧ a ≠ b) := by
  refine l.symbolOperators_pairwise.imp ?_
  rintro a b hbytes ⟨hbegin, hne⟩
  have hlength := length_le_of_byteLength_le hbegin (List.prefix_refl b.toList) hbytes
  exact hne (String.toList_inj.1 (hbegin.eq_of_length_le hlength))

/-! ### Repeats -/

theorem dropRepeats_eq_destutter (names : List String) :
    dropRepeats names = names.destutter (· ≠ ·) := by
  fun_induction dropRepeats names with
  | case1 a names ih =>
    rw [ih, List.destutter_cons_cons, if_neg (not_not_intro rfl), List.destutter_cons']
  | case2 a b names hne ih =>
    rw [ih, List.destutter_cons_cons, if_pos hne, List.destutter_cons']
  | case3 names hshort =>
    rcases names with _ | ⟨a, _ | ⟨b, names⟩⟩
    · rfl
    · rfl
    · exact absurd rfl (hshort a b names)

/-- Words without neighbours that are equal are found among some names if and only if they are found
among these without repeats. -/
theorem sublist_dropRepeats_iff (hwords : words.IsChain (· ≠ ·)) :
    words.Sublist (dropRepeats names) ↔ words.Sublist names := by
  refine ⟨fun h => h.trans (dropRepeats_sublist names), fun h => ?_⟩
  fun_induction dropRepeats names generalizing words with
  | case1 a names ih =>
    refine ih hwords ?_
    -- of the two equal names at most one is used
    cases h with
    | cons _ h => exact h
    | cons_cons _ h =>
      cases h with
      | cons _ h => exact h.cons_cons a
      | cons_cons _ h => exact absurd rfl (List.isChain_cons_cons.1 hwords).1
  | case2 a b names hne ih =>
    cases h with
    | cons _ h => exact (ih hwords h).cons a
    | cons_cons _ h => exact (ih hwords.tail h).cons_cons a
  | case3 names hshort => exact h

/-- Where no neighbours are equal, a name that stands there twice has another one in between. -/
theorem exists_between (hnames : names.IsChain (· ≠ ·)) (h : [name, name].Sublist names) :
    ∃ other ≠ name, [name, other, name].Sublist names := by
  induction names with
  | nil => cases h
  | cons first names ih =>
    cases h with
    | cons _ h =>
      obtain ⟨other, hne, hbetween⟩ := ih hnames.tail h
      exact ⟨other, hne, hbetween.cons first⟩
    | cons_cons _ h =>
      cases h with
      | cons next h =>
        exact ⟨next, (List.isChain_cons_cons.1 hnames).1.symm, (h.cons_cons next).cons_cons name⟩
      | cons_cons _ h => exact absurd rfl (List.isChain_cons_cons.1 hnames).1

theorem two_le_count_of_between {other : String} (h : [name, other, name].Sublist names) :
    2 ≤ names.count name :=
  List.replicate_sublist_iff.1 <| (((List.Sublist.refl [name]).cons other).cons_cons name).trans h

/-- Without repeats a name is there once, unless another one stood between two of it. -/
theorem count_dropRepeats_eq_one_iff (h : name ∈ names) :
    (dropRepeats names).count name = 1 ↔ ∀ other ≠ name, ¬ [name, other, name].Sublist names := by
  have hpos : 0 < (dropRepeats names).count name := List.count_pos_iff.2 (mem_dropRepeats_iff.2 h)
  constructor
  · intro honce other hne hbetween
    have hchain : [name, other, name].IsChain (· ≠ ·) := by simp [hne, hne.symm]
    have htwice := two_le_count_of_between ((sublist_dropRepeats_iff hchain).2 hbetween)
    omega
  · intro hnone
    by_contra honce
    have htwice : [name, name].Sublist (dropRepeats names) :=
      (List.replicate_sublist_iff (n := 2)).2 (by omega)
    have hchain : (dropRepeats names).IsChain (· ≠ ·) := by
      rw [dropRepeats_eq_destutter]
      exact List.isChain_destutter _ names
    obtain ⟨other, hne, hbetween⟩ := exists_between hchain htwice
    exact hnone other hne (hbetween.trans (dropRepeats_sublist names))

/-! ### Symbols of one length -/

/-- Names of one length keep their order. -/
theorem filter_longestFirst (names : List String) (n : Nat) :
    (longestFirst names).filter (byteLength · == n) = names.filter (byteLength · == n) := by
  rw [longestFirst_eq_insertionSort]
  have hsame : (names.filter (byteLength · == n)).Pairwise fun a b => byteLength b ≤ byteLength a :=
    List.pairwise_filter.2 <| List.pairwise_of_forall fun a b ha hb => by
      rw [beq_iff_eq.1 ha, beq_iff_eq.1 hb]
  have hstable := (List.sublist_insertionSort hsame List.filter_sublist).filter (byteLength · == n)
  rw [List.filter_filter] at hstable
  simp only [Bool.and_self] at hstable
  exact (hstable.eq_of_length ((List.perm_insertionSort _ names).filter _).length_eq.symm).symm

/-- Whether another symbol that takes as many bytes stands between two operators of one name. -/
def IsParted (l : Language) (name : String) : Prop :=
  ∃ other ≠ name, isWord other = false ∧ byteLength other = byteLength name ∧
    [name, other, name].Sublist (l.operators.map (·.name))

/-- A name is sorted next to another one exactly as long only where the table has it there. -/
theorem sublist_longestFirst_iff {other : String} :
    [name, other, name].Sublist (longestFirst names) ↔
      byteLength other = byteLength name ∧ [name, other, name].Sublist names := by
  have hfilter (hbytes : byteLength other = byteLength name) :
      [name, other, name].filter (byteLength · == byteLength name) = [name, other, name] := by
    simp [hbytes]
  constructor
  · intro h
    have hsorted := (pairwise_longestFirst names).sublist h
    have hbytes : byteLength other = byteLength name := by
      simp only [List.pairwise_cons, List.mem_cons, List.not_mem_nil] at hsorted
      exact Nat.le_antisymm (hsorted.1 other (by simp)) (hsorted.2.1 name (by simp))
    have hsame := h.filter (byteLength · == byteLength name)
    rw [hfilter hbytes, filter_longestFirst] at hsame
    exact ⟨hbytes, hsame.trans List.filter_sublist⟩
  · rintro ⟨hbytes, h⟩
    have hsame := h.filter (byteLength · == byteLength name)
    rw [hfilter hbytes, ← filter_longestFirst] at hsame
    exact hsame.trans List.filter_sublist

/-- The lexer tries a symbol once, unless the symbol is parted in the table. -/
theorem count_symbolOperators_eq_one_iff (h : l.HasSymbol name) :
    l.symbolOperators.count name = 1 ↔ ¬ l.IsParted name := by
  have hmem := mem_symbolOperators_iff.2 h
  rw [symbolOperators, mem_dropRepeats_iff] at hmem
  rw [symbolOperators, count_dropRepeats_eq_one_iff hmem]
  simp only [sublist_longestFirst_iff]
  constructor
  · rintro hnone ⟨other, hne, hsymbol, hbytes, hparted⟩
    have hsymbols := hparted.filter fun name => !isWord name
    simp only [List.filter_cons, h.2, hsymbol, Bool.not_false, if_true, List.filter_nil] at hsymbols
    exact hnone other hne ⟨hbytes, hsymbols⟩
  · rintro hparted other hne ⟨hbytes, hsymbols⟩
    have hother := hsymbols.subset (List.mem_cons_of_mem name List.mem_cons_self)
    have hsymbol : isWord other = false := by simpa using (List.mem_filter.1 hother).2
    exact hparted ⟨other, hne, hsymbol, hbytes, hsymbols.trans List.filter_sublist⟩

/-! ### The table -/

/-- Whatever is added to the standard language, every place of the table has one operator, the one
added last, and an addition leaves the other places alone. The lexer tries the symbols of the table
and nothing else, none of them behind a symbol that it begins with, and each of them once that is
not parted. -/
theorem withOperators_table (ops : List Operator) :
    ((standard.withOperators ops).operators.map place).Nodup ∧
    (∀ name fixity, (standard.withOperators ops).operator? name fixity =
      (ops.reverse.find? fun o => o.name == name && o.fixity == fixity).or
        (standard.operator? name fixity)) ∧
    (∀ o name fixity, ((standard.withOperators ops).withOperator o).operator? name fixity =
      if o.name = name ∧ o.fixity = fixity then some o
      else (standard.withOperators ops).operator? name fixity) ∧
    (∀ name, name ∈ (standard.withOperators ops).symbolOperators ↔
      (standard.withOperators ops).HasSymbol name) ∧
    ((standard.withOperators ops).symbolOperators.Pairwise fun a b =>
      ¬ (a.toList <+: b.toList ∧ a ≠ b)) ∧
    ∀ name, (standard.withOperators ops).HasSymbol name →
      ((standard.withOperators ops).symbolOperators.count name = 1 ↔
        ¬ (standard.withOperators ops).IsParted name) :=
  ⟨nodup_withOperators (by decide) ops, operator?_withOperators standard ops,
    operator?_withOperator (standard.withOperators ops),
    fun _ => mem_symbolOperators_iff, symbolOperators_pairwise_prefix (standard.withOperators ops),
    fun _ => count_symbolOperators_eq_one_iff⟩

/-- The lexer tries the minus of the standard language twice. -/
theorem standard_minus_twice : standard.symbolOperators.count "-" = 2 := by
  decide +kernel

/-- The minus before an operand and the one between two operands are parted by other symbols of one
byte, a power that is added is not. -/
theorem withOperators_table_power :
    (standard.withOperators [⟨"**", .binary, 75⟩]).symbolOperators.count "-" ≠ 1 ∧
      (standard.withOperators [⟨"**", .binary, 75⟩]).symbolOperators.count "**" = 1 := by
  obtain ⟨-, -, -, hmem, -, honce⟩ := withOperators_table [⟨"**", .binary, 75⟩]
  have hminus := (hmem "-").1 (by decide +kernel)
  have hpower := (hmem "**").1 (by decide +kernel)
  have hparted : (standard.withOperators [⟨"**", .binary, 75⟩]).IsParted "-" :=
    ⟨"*", by decide, by decide +kernel, by decide, by decide +kernel⟩
  refine ⟨fun h => (honce "-" hminus).1 h hparted, (honce "**" hpower).2 ?_⟩
  rintro ⟨other, -, -, -, hbetween⟩
  have htwice := two_le_count_of_between hbetween
  revert htwice
  decide +kernel

end Language

end DocQuery
