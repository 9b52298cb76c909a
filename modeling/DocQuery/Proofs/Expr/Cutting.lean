/-
How the text of an expression is cut into tokens.

* `TokenKind.IsCut` — what the lexer takes for a token, with the text behind it in view;
* `nextToken_of_isCut`, `isCut_of_nextToken` — the lexer takes just that;
* `Piece`, `Piece.Fit` — a token with its spelling and the white space behind it, and pieces that
  are cut one behind the other;
* `tokenize_eq_ok_iff` — the tokens of a text are those of the pieces that it is cut into;
* `tokenize_cuts` — nothing of a text is lost, tokens stand where they are cut off, and operators
  are the longest symbols.

Design notes: where a name, a number or a symbol ends is decided by what comes behind it, so a
piece is judged together with the rest of the text. The fuel of the lexer is never used up, because
every piece takes a character at least.
-/
import DocQuery.Proofs.Expr.Identifier
import DocQuery.Proofs.Expr.Symbols
import DocQuery.Proofs.Expr.Writing
import DocQuery.Proofs.Source.Grammar

namespace DocQuery

/-! ### The next token -/

/-- Whether a symbol can begin with a character: it is no white space, and no number, no quotation
and no name begins with it. -/
def beginsSymbol (c : Char) : Bool :=
  !(Text.isBlank c || c.isDigit || c == '\'' || c == '"' || Text.isNameStart c)

/-- Whether a token of this kind is what a text begins with that is `spelling` and then `behind`:
numbers, names and operators are as long as possible. -/
inductive TokenKind.IsCut (l : Language) (behind : List Char) : TokenKind → List Char → Prop
  | number {c : Char} {cs : List Char} : c.isDigit →
    Number.leading (c :: cs ++ behind) = c :: cs →
      IsCut l behind (.number (String.ofList (c :: cs))) (c :: cs)
  | text {q : Char} {cs : List Char} {quoted : Text.Quoted} : q = '\'' ∨ q = '"' →
    Text.readQuoted (q :: cs ++ behind) = .ok quoted → quoted.width = (q :: cs).length →
      IsCut l behind (.text (String.ofList quoted.text)) (q :: cs)
  | name {c : Char} {cs : List Char} : Text.isNameStart c →
    (c :: cs ++ behind).takeWhile Text.isNameChar = c :: cs →
      IsCut l behind (.name (String.ofList (c :: cs))) (c :: cs)
  | arrow {c : Char} {cs : List Char} : beginsSymbol c → l.arrow.toList = c :: cs →
      IsCut l behind .arrow (c :: cs)
  | mark {c : Char} {kind : TokenKind} : punctuation? c = some kind →
    fitsAt (c :: behind) l.arrow = false → IsCut l behind kind [c]
  | operator {symbol : String} {c : Char} {cs : List Char} : symbol.toList = c :: cs →
    beginsSymbol c → punctuation? c = none → fitsAt (c :: cs ++ behind) l.arrow = false →
    l.IsLongestSymbol symbol (c :: cs ++ behind) → IsCut l behind (.operator symbol) (c :: cs)

section

variable {l : Language} {behind spelling : List Char} {kind : TokenKind} {c next : Cursor}
  {first : Char}

theorem beginsSymbol_iff : beginsSymbol first ↔ Text.isBlank first = false ∧
    first.isDigit = false ∧ ¬ (first = '\'' ∨ first = '"') ∧ Text.isNameStart first = false := by
  simp [beginsSymbol, and_assoc]

/-- Brackets and commas are no white space and begin no word. -/
theorem beginsSymbol_of_punctuation (h : punctuation? first = some kind) : beginsSymbol first := by
  unfold punctuation? at h
  split at h
  iterate 5 exact by decide +kernel
  cases h

/-- A token takes a character at least, and the first one is no white space. -/
theorem TokenKind.IsCut.exists_head (h : kind.IsCut l behind spelling) :
    ∃ c cs, spelling = c :: cs ∧ Text.isBlank c = false := by
  cases h with
  | number hdigit _ =>
    refine ⟨_, _, rfl, ?_⟩
    by_contra hblank
    rw [Bool.not_eq_false] at hblank
    have hnot := Source.isDigit_eq_false_of_isNameChar (Source.not_isNameChar_of_isBlank hblank)
    exact Bool.false_ne_true (hnot.symm.trans hdigit)
  | text hquote _ _ =>
    refine ⟨_, _, rfl, ?_⟩
    rcases hquote with rfl | rfl <;> decide
  | name hstart _ =>
    exact ⟨_, _, rfl, Text.isBlank_eq_false_of_isNameChar (Text.isNameChar_of_isNameStart hstart)⟩
  | arrow hbegins _ => exact ⟨_, _, rfl, (beginsSymbol_iff.1 hbegins).1⟩
  | mark hkind _ =>
    exact ⟨_, _, rfl, (beginsSymbol_iff.1 (beginsSymbol_of_punctuation hkind)).1⟩
  | operator _ hbegins _ _ _ => exact ⟨_, _, rfl, (beginsSymbol_iff.1 hbegins).1⟩

/-- An operator that is cut off is the longest symbol that comes next. -/
theorem TokenKind.IsCut.isLongestSymbol {symbol : String}
    (h : (TokenKind.operator symbol).IsCut l behind spelling) :
    spelling = symbol.toList ∧ l.IsLongestSymbol symbol (spelling ++ behind) := by
  cases h with
  | mark hmark _ =>
    unfold punctuation? at hmark
    split at hmark <;> cases hmark
  | operator hsymbol _ _ _ hlongest => exact ⟨hsymbol.symm, hlongest⟩

theorem passOneOf?_arrow_of_fits (h : fitsAt c.rest l.arrow) :
    c.passOneOf? [l.arrow] = some (l.arrow, c.pass l.arrow.toList.length) := by
  rw [Cursor.passOneOf?_eq_find?, List.find?_cons_of_pos h, Option.map_some]

theorem passOneOf?_arrow_of_not_fits (h : fitsAt c.rest l.arrow = false) :
    c.passOneOf? [l.arrow] = none := by
  rw [Cursor.passOneOf?_eq_find?, List.find?_cons_of_neg (by simp [h]), List.find?_nil,
    Option.map_none]

/-- Behind the readers of words the lexer looks for the arrow, for marks and for operators. -/
theorem nextToken_of_beginsSymbol (h : beginsSymbol first) :
    nextToken l l.symbolOperators first c =
      match c.passOneOf? [l.arrow] with
      | some (_, next) => .ok (.arrow, next)
      | none =>
        match punctuation? first with
        | some kind => .ok (kind, c.pass 1)
        | none =>
          match c.passOneOf? l.symbolOperators with
          | some (symbol, next) => .ok (.operator symbol, next)
          | none => .error (c.fault (.unexpectedCharacter first)) := by
  obtain ⟨-, hdigit, hquote, hname⟩ := beginsSymbol_iff.1 h
  have hdigit : ¬ first.isDigit := by simp [hdigit]
  have hname : ¬ Text.isNameStart first := by simp [hname]
  rw [nextToken]
  exact (if_neg hdigit).trans ((if_neg (by simpa using hquote)).trans (if_neg hname))

/-- What can be cut off is taken. -/
theorem nextToken_of_isCut (h : kind.IsCut l behind spelling) (hc : c.rest = spelling ++ behind) :
    ∃ first, c.peek = some first ∧
      nextToken l l.symbolOperators first c = .ok (kind, c.pass spelling.length) := by
  obtain ⟨first, cs, rfl, -⟩ := h.exists_head
  refine ⟨first, by rw [Cursor.peek, hc]; rfl, ?_⟩
  cases h with
  | number hdigit hleading =>
    have hminus : first :: cs ≠ ['-'] := by
      rintro h
      obtain ⟨rfl, -⟩ := List.cons.inj h
      cases hdigit
    have hread : c.readNumber =
        (.ok (String.ofList (first :: cs)), c.pass (first :: cs).length) := by
      rw [Cursor.readNumber, hc, hleading]
      simp [hminus]
    rw [nextToken, if_pos hdigit]
    exact Except.bind_eq_ok_iff.2 ⟨_, Reading.value_eq_ok_iff.2 hread, rfl⟩
  | @text _ _ quoted hquote hread hwidth =>
    have hread' : c.readQuoted = (.ok ⟨String.ofList quoted.text,
        quoted.offsets.map (c.position.column + ·)⟩, c.pass (first :: cs).length) := by
      rw [Cursor.readQuoted, hc, hread, ← hwidth]
    have hdigit : ¬ first.isDigit := by rcases hquote with rfl | rfl <;> decide
    rw [nextToken, if_neg hdigit, if_pos (by simpa using hquote)]
    exact Except.bind_eq_ok_iff.2 ⟨_, Reading.value_eq_ok_iff.2 hread', rfl⟩
  | name hstart hrun =>
    have hread : c.readName = (.ok (String.ofList (first :: cs)), c.pass (first :: cs).length) := by
      rw [Cursor.readName, hc, hrun]
    obtain ⟨hsingle, hdouble⟩ := Text.ne_quote_of_isNameStart hstart
    rw [nextToken, if_neg (by simp [Text.isDigit_eq_false_of_isNameStart hstart]),
      if_neg (by simp [hsingle, hdouble]), if_pos hstart]
    exact Except.bind_eq_ok_iff.2 ⟨_, Reading.value_eq_ok_iff.2 hread, rfl⟩
  | arrow hbegins harrow =>
    have hfits : fitsAt c.rest l.arrow :=
      fitsAt_iff.2 ⟨by simp [harrow], by rw [harrow, hc]; exact List.prefix_append _ _⟩
    rw [nextToken_of_beginsSymbol hbegins, passOneOf?_arrow_of_fits hfits, harrow]
  | mark hkind harrow =>
    rw [nextToken_of_beginsSymbol (beginsSymbol_of_punctuation hkind),
      passOneOf?_arrow_of_not_fits (by rw [hc]; exact harrow), hkind]
    rfl
  | operator hsymbol hbegins hmark harrow hlongest =>
    have hpass := Language.passOneOf?_symbolOperators_iff.2 ⟨hc ▸ hlongest, rfl⟩
    rw [nextToken_of_beginsSymbol hbegins, passOneOf?_arrow_of_not_fits (by rw [hc]; exact harrow),
      hmark, hpass, hsymbol]

/-- A beginning of a text that is not empty begins with the first character of the text. -/
theorem exists_cons_of_append (hc : c.rest = spelling ++ behind) (hne : spelling ≠ [])
    (hfirst : c.peek = some first) : ∃ cs, spelling = first :: cs := by
  obtain ⟨d, cs, rfl⟩ := List.exists_cons_of_ne_nil hne
  rw [Cursor.peek, hc] at hfirst
  exact ⟨cs, by rw [Option.some.inj hfirst]⟩

theorem isCut_of_readNumber {digits : String} (hfirst : c.peek = some first)
    (hdigit : first.isDigit) (h : c.readNumber = (.ok digits, next)) :
    ∃ spelling, c.rest = spelling ++ next.rest ∧ next = c.pass spelling.length ∧
      TokenKind.IsCut l next.rest (.number digits) spelling := by
  have hrest := Source.readNumber_rest h
  rw [Cursor.readNumber] at h
  split at h
  · simp at h
  · rename_i hne
    simp only [Bool.or_eq_true, decide_eq_true_eq, not_or] at hne
    obtain ⟨hdigits, hnext⟩ := Prod.mk.inj h
    obtain rfl := Except.ok.inj hdigits
    rw [String.toList_ofList] at hrest
    obtain ⟨cs, hcs⟩ := exists_cons_of_append hrest hne.1 hfirst
    rw [hcs] at hrest hnext ⊢
    exact ⟨_, hrest, hnext.symm, .number hdigit (by rw [← hrest, hcs])⟩

theorem isCut_of_readQuoted {quoted : Cursor.QuotedText} (hfirst : c.peek = some first)
    (hquote : first = '\'' ∨ first = '"') (h : c.readQuoted = (.ok quoted, next)) :
    ∃ spelling, c.rest = spelling ++ next.rest ∧ next = c.pass spelling.length ∧
      TokenKind.IsCut l next.rest (.text quoted.text) spelling := by
  rw [Cursor.readQuoted] at h
  split at h
  · rename_i q hq
    obtain ⟨hquoted, rfl⟩ := Prod.mk.inj h
    obtain rfl := Except.ok.inj hquoted
    obtain ⟨hpos, hle, -⟩ := Text.readQuoted_stable hq
    have hrest : c.rest = c.rest.take q.width ++ (c.pass q.width).rest :=
      (List.take_append_drop q.width c.rest).symm
    have hlength : (c.rest.take q.width).length = q.width := by
      rw [List.length_take, Nat.min_eq_left hle]
    have hne : c.rest.take q.width ≠ [] := by
      rintro hnil
      rw [hnil, List.length_nil] at hlength
      omega
    obtain ⟨cs, hcs⟩ := exists_cons_of_append hrest hne hfirst
    rw [hcs] at hrest hlength
    exact ⟨_, hrest, by rw [hlength], .text hquote (hrest ▸ hq) hlength.symm⟩
  · simp at h

theorem isCut_of_readName {name : String} (hfirst : c.peek = some first)
    (hstart : Text.isNameStart first) (h : c.readName = (.ok name, next)) :
    ∃ spelling, c.rest = spelling ++ next.rest ∧ next = c.pass spelling.length ∧
      TokenKind.IsCut l next.rest (.name name) spelling := by
  have hrest := Source.readName_rest h
  rw [Cursor.readName] at h
  split at h
  · simp at h
  · rename_i hne
    obtain ⟨hname, hnext⟩ := Prod.mk.inj h
    obtain rfl := Except.ok.inj hname
    rw [String.toList_ofList] at hrest
    obtain ⟨cs, hcs⟩ := exists_cons_of_append hrest hne hfirst
    rw [hcs] at hrest hnext ⊢
    exact ⟨_, hrest, hnext.symm, .name hstart (by rw [← hrest, hcs])⟩

/-- What is taken can be cut off. -/
theorem isCut_of_nextToken (hfirst : c.peek = some first) (hblank : Text.isBlank first = false)
    (h : nextToken l l.symbolOperators first c = .ok (kind, next)) :
    ∃ spelling, c.rest = spelling ++ next.rest ∧ next = c.pass spelling.length ∧
      kind.IsCut l next.rest spelling := by
  obtain ⟨tail, hc⟩ := List.head?_eq_some_iff.1 hfirst
  by_cases hdigit : first.isDigit
  · rw [nextToken, if_pos hdigit] at h
    obtain ⟨⟨digits, d⟩, hread, h⟩ := Except.bind_eq_ok_iff.1 h
    obtain ⟨rfl, rfl⟩ := Prod.mk.inj (Except.ok.inj h)
    exact isCut_of_readNumber hfirst hdigit (Reading.value_eq_ok_iff.1 hread)
  by_cases hquote : first = '\'' ∨ first = '"'
  · rw [nextToken, if_neg hdigit, if_pos (by simpa using hquote)] at h
    obtain ⟨⟨quoted, d⟩, hread, h⟩ := Except.bind_eq_ok_iff.1 h
    obtain ⟨rfl, rfl⟩ := Prod.mk.inj (Except.ok.inj h)
    exact isCut_of_readQuoted hfirst hquote (Reading.value_eq_ok_iff.1 hread)
  by_cases hstart : Text.isNameStart first
  · rw [nextToken, if_neg hdigit, if_neg (by simpa using hquote), if_pos hstart] at h
    obtain ⟨⟨name, d⟩, hread, h⟩ := Except.bind_eq_ok_iff.1 h
    obtain ⟨rfl, rfl⟩ := Prod.mk.inj (Except.ok.inj h)
    exact isCut_of_readName hfirst hstart (Reading.value_eq_ok_iff.1 hread)
  have hbegins : beginsSymbol first :=
    beginsSymbol_iff.2 ⟨hblank, by simpa using hdigit, hquote, by simpa using hstart⟩
  rw [nextToken_of_beginsSymbol hbegins] at h
  by_cases harrow : fitsAt c.rest l.arrow
  · rw [passOneOf?_arrow_of_fits harrow] at h
    obtain ⟨rfl, rfl⟩ := Prod.mk.inj (Except.ok.inj h)
    obtain ⟨hne, hbegin⟩ := fitsAt_iff.1 harrow
    have hrest : c.rest = l.arrow.toList ++ (c.pass l.arrow.toList.length).rest :=
      (List.prefix_iff_eq_append.1 hbegin).symm
    obtain ⟨cs, hcs⟩ := exists_cons_of_append hrest hne hfirst
    exact ⟨_, hrest, rfl, hcs ▸ .arrow hbegins hcs⟩
  rw [Bool.not_eq_true] at harrow
  rw [passOneOf?_arrow_of_not_fits harrow] at h
  rcases hmark : punctuation? first with _ | found
  · rw [hmark] at h
    simp only at h
    split at h
    · -- an operator
      rename_i symbol d hpass
      obtain ⟨rfl, rfl⟩ := Prod.mk.inj (Except.ok.inj h)
      obtain ⟨hlongest, rfl⟩ := Language.passOneOf?_symbolOperators_iff.1 hpass
      have hrest : c.rest = symbol.toList ++ (c.pass symbol.toList.length).rest :=
        (List.prefix_iff_eq_append.1 hlongest.isPrefix).symm
      obtain ⟨cs, hcs⟩ := exists_cons_of_append hrest hlongest.hasSymbol.ne_nil hfirst
      refine ⟨symbol.toList, hrest, rfl, ?_⟩
      rw [hcs] at hrest ⊢
      exact .operator hcs hbegins hmark (hrest ▸ harrow) (hrest ▸ hlongest)
    · cases h
  · rw [hmark] at h
    obtain ⟨rfl, rfl⟩ := Prod.mk.inj (Except.ok.inj h)
    have hrest : c.rest = first :: (c.pass 1).rest := by
      rw [Cursor.pass, hc]
      rfl
    exact ⟨[first], hrest, rfl, .mark hmark (by rw [← hrest]; exact harrow)⟩

end

/-! ### Pieces -/

/-- A token with the characters that it is spelled with, and the white space behind it. -/
structure Piece where
  kind : TokenKind
  spelling : List Char
  blank : List Char

namespace Piece

/-- The characters of a piece. -/
def chars (x : Piece) : List Char := x.spelling ++ x.blank

/-- The text of pieces that stand one behind the other. -/
def join (xs : List Piece) : List Char := xs.flatMap chars

/-- The tokens of pieces that stand one behind the other, the first one at `p`. -/
def place (p : Position) : List Piece → List Token
  | [] => []
  | x :: xs => ⟨x.kind, p⟩ :: place (p.after x.chars) xs

/-- Whether pieces are cut off one behind the other, with white space between them. -/
inductive Fit (l : Language) : List Piece → Prop
  | nil : Fit l []
  | cons {x : Piece} {xs : List Piece} : (∀ c ∈ x.blank, Text.isBlank c) →
    x.kind.IsCut l (x.blank ++ join xs) x.spelling → Fit l xs → Fit l (x :: xs)

variable {l : Language} {x : Piece} {xs ys : List Piece} {p : Position}

@[simp] theorem join_nil : join [] = [] := rfl

@[simp] theorem join_cons : join (x :: xs) = x.spelling ++ (x.blank ++ join xs) := by
  rw [join, List.flatMap_cons, chars, List.append_assoc, join]

@[simp] theorem join_append : join (xs ++ ys) = join xs ++ join ys := List.flatMap_append

theorem map_kind_place (p : Position) (xs : List Piece) :
    (place p xs).map (·.kind) = xs.map (·.kind) := by
  induction xs generalizing p with
  | nil => rfl
  | cons x xs ih => rw [place, List.map_cons, List.map_cons, ih]

/-- A piece stands behind the text of those before it. -/
theorem getElem?_place (p : Position) (xs ys : List Piece) :
    (place p (xs ++ x :: ys))[xs.length]? = some ⟨x.kind, p.after (join xs)⟩ := by
  induction xs generalizing p with
  | nil => rfl
  | cons y xs ih =>
    rw [List.cons_append, place, List.length_cons, List.getElem?_cons_succ, ih,
      ← Position.after_append, chars, join_cons, List.append_assoc]

theorem Fit.behind (h : Fit l (xs ++ ys)) : Fit l ys := by
  induction xs with
  | nil => exact h
  | cons x xs ih =>
    cases h with
    | cons _ _ hrest => exact ih hrest

theorem Fit.blank (h : Fit l xs) : ∀ x ∈ xs, ∀ c ∈ x.blank, Text.isBlank c := by
  induction h with
  | nil => exact fun x hx => absurd hx List.not_mem_nil
  | cons hblank _ _ ih => exact List.forall_mem_cons.2 ⟨hblank, ih⟩

/-- Pieces do not begin with white space. -/
theorem Fit.head (h : Fit l xs) : ∀ c ∈ (join xs).head?, Text.isBlank c = false := by
  intro c hc
  cases h with
  | nil => cases hc
  | cons _ hcut _ =>
    obtain ⟨d, ds, hspelling, hd⟩ := hcut.exists_head
    rw [join_cons, hspelling] at hc
    obtain rfl := Option.some.inj hc
    exact hd

end Piece

/-! ### All tokens -/

/-- The cursor behind a beginning of what is left. -/
theorem Cursor.pass_append {c : Cursor} {cs rest : List Char} (h : c.rest = cs ++ rest) :
    c.pass cs.length = ⟨rest, c.position.after cs⟩ := by
  rw [pass, h, List.drop_left, List.take_left]

/-- The cursor behind white space that something else follows. -/
theorem Cursor.skipBlank_append {c : Cursor} {lead rest : List Char} (h : c.rest = lead ++ rest)
    (hlead : ∀ d ∈ lead, Text.isBlank d) (hrest : ∀ d ∈ rest.head?, Text.isBlank d = false) :
    c.skipBlank = ⟨rest, c.position.after lead⟩ := by
  have hrun : c.rest.takeWhile Text.isBlank = lead := by
    rw [h]
    exact Source.takeWhile_run hlead hrest
  rw [skipBlank, hrun, pass_append h]

/-- Every cursor stands before some white space that something else follows. -/
theorem Cursor.exists_lead (c : Cursor) : ∃ lead rest, c.rest = lead ++ rest ∧
    (∀ d ∈ lead, Text.isBlank d) ∧ ∀ d ∈ rest.head?, Text.isBlank d = false := by
  refine ⟨c.rest.takeWhile Text.isBlank, Text.dropBlank c.rest, c.rest_eq_append_dropBlank,
    fun _ => List.mem_takeWhile_imp, fun d hd => ?_⟩
  have hdrop := List.head?_dropWhile_not Text.isBlank c.rest
  rw [← Text.dropBlank, hd] at hdrop
  simpa using hdrop

section

variable {l : Language} {c : Cursor} {ts : Tokens} {fuel : Nat}

/-- The tokens that are read are those of pieces that fit. -/
theorem exists_pieces_of_tokensFrom (hfuel : c.rest.length < fuel)
    (h : tokensFrom l l.symbolOperators fuel c = .ok ts) :
    ∃ lead xs, (∀ d ∈ lead, Text.isBlank d) ∧ Piece.Fit l xs ∧ c.rest = lead ++ Piece.join xs ∧
      ts = ⟨Piece.place (c.position.after lead) xs, c.position.after c.rest⟩ := by
  induction fuel generalizing c ts with
  | zero => exact absurd hfuel (Nat.not_lt_zero _)
  | succ fuel ih =>
    obtain ⟨lead, rest, hrest, hlead, hhead⟩ := c.exists_lead
    rw [tokensFrom, Cursor.skipBlank_append hrest hlead hhead] at h
    simp only at h
    split at h
    · rename_i hnone
      obtain rfl : rest = [] := List.head?_eq_none_iff.1 hnone
      obtain rfl := Except.ok.inj h
      exact ⟨lead, [], hlead, .nil, hrest, by rw [hrest, List.append_nil]; rfl⟩
    · rename_i first hfirst
      obtain ⟨⟨kind, next⟩, hnext, h⟩ := Except.bind_eq_ok_iff.1 h
      obtain ⟨more, hmore, h⟩ := Except.bind_eq_ok_iff.1 h
      obtain rfl := Except.ok.inj h
      obtain ⟨spelling, hspelling, hpass, hcut⟩ :=
        isCut_of_nextToken hfirst (hhead first hfirst) hnext
      simp only at hspelling
      rw [Cursor.pass_append hspelling] at hpass
      -- the piece takes a character at least, so the fuel is enough for the others
      have hshorter : next.rest.length < fuel := by
        obtain ⟨d, ds, rfl, -⟩ := hcut.exists_head
        rw [hrest, hspelling] at hfuel
        simp only [List.length_append, List.length_cons] at hfuel
        omega
      obtain ⟨blank, xs, hblank, hfit, hbehind, rfl⟩ := ih hshorter hmore
      rw [hbehind] at hcut hspelling
      refine ⟨lead, ⟨kind, spelling, blank⟩ :: xs, hlead, .cons hblank hcut hfit, ?_, ?_⟩
      · rw [hrest, hspelling, Piece.join_cons]
      · rw [hbehind, hpass, hrest, hspelling]
        simp only [Piece.place, Piece.chars, Position.after_append]

/-- The tokens of pieces that fit are read. -/
theorem tokensFrom_pieces {lead : List Char} {xs : List Piece} (hfuel : c.rest.length < fuel)
    (hlead : ∀ d ∈ lead, Text.isBlank d) (hfit : Piece.Fit l xs)
    (hc : c.rest = lead ++ Piece.join xs) :
    tokensFrom l l.symbolOperators fuel c =
      .ok ⟨Piece.place (c.position.after lead) xs, c.position.after c.rest⟩ := by
  induction xs generalizing c lead fuel with
  | nil =>
    obtain ⟨fuel, rfl⟩ : ∃ n, fuel = n + 1 := ⟨fuel - 1, by omega⟩
    rw [tokensFrom, Cursor.skipBlank_append hc hlead hfit.head, hc]
    simp only [Cursor.peek, Piece.join_nil, List.head?_nil, List.append_nil]
    rfl
  | cons x xs ih =>
    obtain ⟨fuel, rfl⟩ : ∃ n, fuel = n + 1 := ⟨fuel - 1, by omega⟩
    have hstart := Cursor.skipBlank_append hc hlead hfit.head
    cases hfit with
    | cons hblank hcut hrest =>
      rw [Piece.join_cons] at hstart
      obtain ⟨first, hpeek, hnext⟩ := nextToken_of_isCut (c := c.skipBlank) hcut (by rw [hstart])
      have hpass : c.skipBlank.pass x.spelling.length =
          ⟨x.blank ++ Piece.join xs, (c.position.after lead).after x.spelling⟩ := by
        rw [hstart]
        exact Cursor.pass_append rfl
      rw [hpass] at hnext
      have hshorter : (x.blank ++ Piece.join xs).length < fuel := by
        obtain ⟨d, ds, hspelling, -⟩ := hcut.exists_head
        rw [hc, Piece.join_cons, hspelling] at hfuel
        simp only [List.length_append, List.length_cons] at hfuel ⊢
        omega
      have hmore := ih (c := ⟨x.blank ++ Piece.join xs, (c.position.after lead).after x.spelling⟩)
        hshorter hblank hrest rfl
      rw [tokensFrom]
      simp only [hpeek]
      refine Except.bind_eq_ok_iff.2 ⟨_, hnext, Except.bind_eq_ok_iff.2 ⟨_, hmore, ?_⟩⟩
      rw [hc, hstart]
      simp only [Piece.place, Piece.chars, Piece.join_cons, Position.after_append]

end

/-- The tokens of a text are those of the pieces that it is cut into. -/
theorem tokenize_eq_ok_iff {l : Language} {text : String} {origin : Position} {ts : Tokens} :
    tokenize l text origin = .ok ts ↔
      ∃ lead xs, (∀ c ∈ lead, Text.isBlank c) ∧ Piece.Fit l xs ∧
        text.toList = lead ++ Piece.join xs ∧
        ts = ⟨Piece.place (origin.after lead) xs, origin.after text.toList⟩ := by
  constructor
  · exact fun h => exists_pieces_of_tokensFrom (Nat.lt_succ_self _) h
  · rintro ⟨lead, xs, hlead, hfit, htext, rfl⟩
    exact tokensFrom_pieces (Nat.lt_succ_self _) hlead hfit htext

/-- Only one beginning of a text ends at a given place. -/
theorem Position.eq_of_after_eq {p : Position} {as bs cs : List Char} (ha : as <+: cs)
    (hb : bs <+: cs) (h : p.after as = p.after bs) : as = bs := by
  -- what the longer one has more would lead further on
  have hshort : ∀ {as bs : List Char}, as <+: bs → p.after as = p.after bs → as = bs := by
    rintro as _ ⟨more, rfl⟩ h
    rw [after_append] at h
    rcases eq_or_ne more [] with rfl | hmore
    · rw [List.append_nil]
    · exact absurd h (before_after hmore).ne
  rcases List.prefix_or_prefix_of_prefix ha hb with hle | hle
  · exact hshort hle h
  · exact (hshort hle h.symm).symm

/-- The tokens of a text cut it into their spellings, with nothing but white space before, between
and behind them. Every token stands at the only place of the text where it is cut off, and an
operator is the longest symbol of the language that comes next there. -/
theorem tokenize_cuts {l : Language} {text : String} {origin : Position} {ts : Tokens}
    (h : tokenize l text origin = .ok ts) :
    ∃ (lead : List Char) (pieces : List Piece),
      text.toList = lead ++ Piece.join pieces ∧
      (∀ c ∈ lead, Text.isBlank c) ∧ (∀ x ∈ pieces, ∀ c ∈ x.blank, Text.isBlank c) ∧
      ts.kinds = pieces.map (·.kind) ∧ ts.finish = origin.after text.toList ∧
      ∀ before x behind, pieces = before ++ x :: behind →
        ∃ t, ts.list[before.length]? = some t ∧ t.kind = x.kind ∧
          (∀ cs, cs <+: text.toList →
            (origin.after cs = t.position ↔ cs = lead ++ Piece.join before)) ∧
          x.kind.IsCut l (x.blank ++ Piece.join behind) x.spelling ∧
          ∀ symbol, x.kind = .operator symbol → x.spelling = symbol.toList ∧
            l.IsLongestSymbol symbol (x.spelling ++ (x.blank ++ Piece.join behind)) := by
  obtain ⟨lead, pieces, hlead, hfit, htext, rfl⟩ := tokenize_eq_ok_iff.1 h
  refine ⟨lead, pieces, htext, hlead, hfit.blank, Piece.map_kind_place _ _, rfl, ?_⟩
  rintro before x behind rfl
  refine ⟨_, Piece.getElem?_place _ _ _, rfl, fun cs hcs => ?_, ?_⟩
  · have hbefore : lead ++ Piece.join before <+: text.toList := by
      rw [htext, Piece.join_append, ← List.append_assoc]
      exact List.prefix_append _ _
    rw [← Position.after_append]
    exact ⟨Position.eq_of_after_eq hcs hbefore, fun heq => by rw [heq]⟩
  · cases hfit.behind with
    | cons _ hcut _ =>
      exact ⟨hcut, fun symbol hkind => (hkind ▸ hcut).isLongestSymbol⟩

theorem tokenize_cuts_overlapping :
    ∃ ts lead pieces,
      tokenize ((Language.standard.withOperator ⟨"**", .binary, 75⟩).withOperator
        ⟨"<=>", .binary, 45⟩) " a**-b <=>1.5e3.c<=0x1F=>'('" .start = .ok ts ∧
      ts.kinds = [.name "a", .operator "**", .operator "-", .name "b", .operator "<=>",
        .number "1.5e3", .operator ".", .name "c", .operator "<=", .number "0x1F", .arrow,
        .text "("] ∧
      " a**-b <=>1.5e3.c<=0x1F=>'('".toList = lead ++ Piece.join pieces ∧
      ts.kinds = pieces.map (·.kind) := by
  obtain ⟨ts, hts⟩ := Except.exists_of_isOk (show (tokenize ((Language.standard.withOperator
    ⟨"**", .binary, 75⟩).withOperator ⟨"<=>", .binary, 45⟩) " a**-b <=>1.5e3.c<=0x1F=>'('"
      .start).isOk by decide +kernel)
  obtain ⟨lead, pieces, htext, -, -, hkinds, -, -⟩ := tokenize_cuts hts
  have htokens : (tokenize ((Language.standard.withOperator ⟨"**", .binary, 75⟩).withOperator
      ⟨"<=>", .binary, 45⟩) " a**-b <=>1.5e3.c<=0x1F=>'('" .start).toOption.map Tokens.kinds =
        some [.name "a", .operator "**", .operator "-", .name "b", .operator "<=>",
          .number "1.5e3", .operator ".", .name "c", .operator "<=", .number "0x1F", .arrow,
          .text "("] := by
    decide +kernel
  rw [hts] at htokens
  exact ⟨ts, lead, pieces, hts, Option.some.inj htokens, htext, hkinds⟩

end DocQuery
