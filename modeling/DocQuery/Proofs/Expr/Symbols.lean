/-
The symbols of a language, as the lexer tries them.

* `Language.HasSymbol` — an operator of the language has this name, and the name is no word;
* `Language.IsLongestSymbol` — the longest symbol of the language that a text begins with;
* `Language.mem_symbolOperators_iff`, `Language.symbolOperators_pairwise` — the lexer tries all
  symbols, the longest ones first;
* `Language.passOneOf?_symbolOperators_iff` — so it takes the longest one that fits.

Design notes: symbols are sorted by the bytes that they take. Of two beginnings of one text the one
with more bytes is the one with more characters, so the order among others does not matter.
-/
import DocQuery.Expr.Lexer
import Mathlib.Data.List.Sort

namespace DocQuery

/-- Whether a text begins with a word that is not empty. -/
def fitsAt (cs : List Char) (word : String) : Bool :=
  !word.toList.isEmpty && word.toList.isPrefixOf cs

theorem fitsAt_iff {cs : List Char} {word : String} :
    fitsAt cs word ↔ word.toList ≠ [] ∧ word.toList <+: cs := by
  rw [fitsAt, Bool.and_eq_true, Bool.not_eq_true', List.isEmpty_eq_false_iff,
    List.isPrefixOf_iff_prefix]

/-- The first of some words that comes next is found by looking at one after the other. -/
theorem Cursor.passOneOf?_eq_find? (c : Cursor) (words : List String) :
    c.passOneOf? words =
      (words.find? (fitsAt c.rest)).map fun word => (word, c.pass word.toList.length) := by
  induction words with
  | nil => rfl
  | cons word words ih =>
    rw [passOneOf?, List.find?_cons, fitsAt]
    split
    · rename_i hnil
      simp only [hnil, List.isEmpty_nil, Bool.not_true, Bool.false_and]
      exact ih
    · rename_i hne
      have hsome : word.toList.isEmpty = false := by simpa using hne
      rw [passWord?, startsWith, hsome]
      by_cases hstarts : word.toList.isPrefixOf c.rest
      · simp [hstarts]
      · simp [hstarts, ih]

namespace Language

variable {l : Language} {symbol other : String} {names : List String} {cs : List Char}

/-! ### Lengths -/

/-- Of two beginnings of a text, the one that takes more bytes has more characters. -/
theorem length_le_of_byteLength_le (hsymbol : symbol.toList <+: cs) (hother : other.toList <+: cs)
    (h : byteLength other ≤ byteLength symbol) : other.toList.length ≤ symbol.toList.length := by
  by_contra hlonger
  obtain ⟨more, hmore⟩ :=
    List.prefix_of_prefix_length_le hsymbol hother (by omega)
  have hpos : more ≠ [] := by
    rintro rfl
    rw [← hmore, List.append_nil] at hlonger
    exact hlonger le_rfl
  obtain ⟨d, ds, rfl⟩ := List.exists_cons_of_ne_nil hpos
  -- the characters behind the shorter one take bytes of their own
  have hbytes : ∀ (as : List Char) (n : Nat),
      as.foldr (fun c bytes => c.utf8Size + bytes) n =
        as.foldr (fun c bytes => c.utf8Size + bytes) 0 + n := by
    intro as n
    induction as with
    | nil => simp
    | cons a as ih =>
      rw [List.foldr_cons, List.foldr_cons, ih]
      omega
  have hd := d.utf8Size_pos
  rw [byteLength, byteLength, ← hmore, List.foldr_append, hbytes, List.foldr_cons] at h
  omega

/-! ### Sorting -/

theorem longestFirst_eq_insertionSort (names : List String) :
    longestFirst names = names.insertionSort fun a b => byteLength b ≤ byteLength a := by
  have hinsert : ∀ (name : String) (names : List String), insertByLength name names =
      names.orderedInsert (fun a b => byteLength b ≤ byteLength a) name := by
    intro name names
    induction names with
    | nil => rfl
    | cons other names ih => rw [insertByLength, List.orderedInsert_cons, ih]
  rw [longestFirst]
  induction names with
  | nil => rfl
  | cons name names ih => rw [List.foldr_cons, ih, hinsert, List.insertionSort_cons]

theorem pairwise_longestFirst (names : List String) :
    (longestFirst names).Pairwise fun a b => byteLength b ≤ byteLength a := by
  have : Std.Total fun a b => byteLength b ≤ byteLength a :=
    ⟨fun a b => Nat.le_total (byteLength b) (byteLength a)⟩
  have : IsTrans String fun a b => byteLength b ≤ byteLength a :=
    ⟨fun _ _ _ hab hbc => Nat.le_trans hbc hab⟩
  rw [longestFirst_eq_insertionSort]
  exact List.pairwise_insertionSort _ names

theorem dropRepeats_sublist (names : List String) : (dropRepeats names).Sublist names := by
  fun_induction dropRepeats names with
  | case1 a names ih => exact ih.cons a
  | case2 a b names hne ih => exact ih.cons_cons a
  | case3 names hshort => exact .refl names

theorem mem_dropRepeats_iff : symbol ∈ dropRepeats names ↔ symbol ∈ names := by
  refine ⟨fun h => (dropRepeats_sublist names).subset h, fun h => ?_⟩
  fun_induction dropRepeats names with
  | case1 a names ih => exact ih (by simpa using h)
  | case2 a b names hne ih =>
    rcases List.mem_cons.1 h with rfl | h
    · exact List.mem_cons_self
    · exact List.mem_cons_of_mem _ (ih h)
  | case3 names hshort => exact h

/-- Whether `symbol` is the name of an operator of the language, and no word. -/
def HasSymbol (l : Language) (symbol : String) : Prop :=
  (∃ o ∈ l.operators, o.name = symbol) ∧ isWord symbol = false

theorem HasSymbol.ne_nil (h : l.HasSymbol symbol) : symbol.toList ≠ [] := by
  intro hnil
  have hword : isWord symbol = true := by rw [isWord, hnil, List.all_nil]
  exact Bool.false_ne_true (h.2.symm.trans hword)

theorem mem_symbolOperators_iff : symbol ∈ l.symbolOperators ↔ l.HasSymbol symbol := by
  rw [symbolOperators, mem_dropRepeats_iff, longestFirst_eq_insertionSort, List.mem_insertionSort,
    List.mem_filter, List.mem_map, HasSymbol, Bool.not_eq_true']

/-- Symbols are tried the longest ones first. -/
theorem symbolOperators_pairwise (l : Language) :
    l.symbolOperators.Pairwise fun a b => byteLength b ≤ byteLength a :=
  (pairwise_longestFirst _).sublist (dropRepeats_sublist _)

/-! ### The longest symbol -/

/-- Whether `symbol` is the longest symbol of the language that the text `cs` begins with. -/
structure IsLongestSymbol (l : Language) (symbol : String) (cs : List Char) : Prop where
  hasSymbol : l.HasSymbol symbol
  isPrefix : symbol.toList <+: cs
  longest : ∀ other, l.HasSymbol other → other.toList <+: cs →
    other.toList.length ≤ symbol.toList.length

theorem IsLongestSymbol.eq (h : l.IsLongestSymbol symbol cs) (h' : l.IsLongestSymbol other cs) :
    other = symbol := by
  have hlength : other.toList.length = symbol.toList.length :=
    Nat.le_antisymm (h.longest other h'.hasSymbol h'.isPrefix)
      (h'.longest symbol h.hasSymbol h.isPrefix)
  have hbegin := List.prefix_of_prefix_length_le h'.isPrefix h.isPrefix hlength.le
  exact String.toList_inj.1 (hbegin.eq_of_length hlength)

/-- The first symbol that fits is the longest one. -/
theorem isLongestSymbol_of_find? (h : l.symbolOperators.find? (fitsAt cs) = some symbol) :
    l.IsLongestSymbol symbol cs := by
  obtain ⟨hfits, before, behind, hsymbols, hbefore⟩ := List.find?_eq_some_iff_append.1 h
  have hmem : symbol ∈ l.symbolOperators := by simp [hsymbols]
  have hbegin := (fitsAt_iff.1 hfits).2
  refine ⟨mem_symbolOperators_iff.1 hmem, hbegin, fun other hother hstarts => ?_⟩
  refine length_le_of_byteLength_le hbegin hstarts ?_
  have hall := l.symbolOperators_pairwise
  have hotherMem := mem_symbolOperators_iff.2 hother
  rw [hsymbols] at hall hotherMem
  -- a symbol that fits as well is not tried earlier
  rcases List.mem_append.1 hotherMem with hearlier | hlater
  · have hnot := hbefore other hearlier
    simp [fitsAt_iff.2 ⟨hother.ne_nil, hstarts⟩] at hnot
  · rcases List.mem_cons.1 hlater with rfl | hlater
    · exact le_rfl
    · exact (List.pairwise_cons.1 (List.pairwise_append.1 hall).2.1).1 other hlater

/-- What the lexer takes is the longest symbol that comes next. -/
theorem passOneOf?_symbolOperators_iff {c next : Cursor} :
    c.passOneOf? l.symbolOperators = some (symbol, next) ↔
      l.IsLongestSymbol symbol c.rest ∧ next = c.pass symbol.toList.length := by
  rw [Cursor.passOneOf?_eq_find?, Option.map_eq_some_iff]
  constructor
  · rintro ⟨found, hfound, h⟩
    obtain ⟨rfl, rfl⟩ := Prod.mk.inj h
    exact ⟨isLongestSymbol_of_find? hfound, rfl⟩
  · rintro ⟨h, rfl⟩
    have hfits := fitsAt_iff.2 ⟨h.hasSymbol.ne_nil, h.isPrefix⟩
    have hsome : (l.symbolOperators.find? (fitsAt c.rest)).isSome :=
      List.find?_isSome.2 ⟨symbol, mem_symbolOperators_iff.2 h.hasSymbol, hfits⟩
    obtain ⟨found, hfound⟩ := Option.isSome_iff_exists.1 hsome
    obtain rfl := h.eq (isLongestSymbol_of_find? hfound)
    exact ⟨found, hfound, rfl⟩

end Language

end DocQuery
