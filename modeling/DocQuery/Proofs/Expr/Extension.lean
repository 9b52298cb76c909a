/-
An operator that a text does not mention changes nothing in it.

* `Language.DiffersAt` — two languages that have the same operators but for those of one name;
* `Language.DiffersAt.tokenize_eq` — a text without the name is cut into the same tokens;
* `Tokens.Free` — tokens of which none spells the name;
* `Language.DiffersAt.parseOperation_eq` — such tokens are parsed in the same way;
* `parseExpression_withOperator` — with one operator more, a text without its name has the same tree
  or the same fault.

Design notes: a language is asked for operators by their names only, and every name that it is asked
for stands in the text. How the operators are kept, in which order and with which others removed, is
not looked at again behind `operator?_withOperator`. A parser leaves the end of the tokens that it is
given, so what is free of a name stays so.
-/
import DocQuery.Proofs.Expr.Cutting
import DocQuery.Proofs.Expr.Table

namespace DocQuery

namespace Language

variable {l l' : Language} {name symbol : String}

/-- Whether two languages have the same operators of every name but `name`, and no other
differences in what the parser asks them for. -/
structure DiffersAt (name : String) (l l' : Language) : Prop where
  operator?_eq : ∀ spelling fixity, spelling ≠ name →
    l'.operator? spelling fixity = l.operator? spelling fixity
  keywords_eq : l'.keywords = l.keywords
  arrow_eq : l'.arrow = l.arrow

/-- One operator more takes the place of operators of its own name only. -/
theorem withOperator_differsAt (l : Language) (o : Operator) :
    DiffersAt o.name l (l.withOperator o) where
  operator?_eq := by
    intro spelling fixity hne
    rw [operator?_withOperator, if_neg fun hplace => hne hplace.1.symm]
  keywords_eq := rfl
  arrow_eq := rfl

theorem exists_operator_iff : (∃ o ∈ l.operators, o.name = symbol) ↔
    ∃ fixity o, l.operator? symbol fixity = some o := by
  constructor
  · rintro ⟨o, ho, rfl⟩
    have hsome : (l.operator? o.name o.fixity).isSome := List.find?_isSome.2 ⟨o, ho, by simp⟩
    exact ⟨o.fixity, Option.isSome_iff_exists.1 hsome⟩
  · rintro ⟨fixity, o, ho⟩
    exact ⟨o, operator?_eq_some ho⟩

namespace DiffersAt

theorem hasSymbol_iff (h : DiffersAt name l l') (hne : symbol ≠ name) :
    l'.HasSymbol symbol ↔ l.HasSymbol symbol := by
  rw [HasSymbol, HasSymbol, exists_operator_iff, exists_operator_iff]
  simp only [h.operator?_eq symbol _ hne]

theorem symm (h : DiffersAt name l l') : DiffersAt name l' l where
  operator?_eq := fun spelling fixity hne => (h.operator?_eq spelling fixity hne).symm
  keywords_eq := h.keywords_eq.symm
  arrow_eq := h.arrow_eq.symm

/-- Where a text does not begin with the name, its longest symbol is the same. -/
theorem isLongestSymbol (h : DiffersAt name l l') {cs : List Char} (hcs : ¬ name.toList <+: cs)
    (hsymbol : l.IsLongestSymbol symbol cs) : l'.IsLongestSymbol symbol cs := by
  have hne : ∀ other : String, other.toList <+: cs → other ≠ name := by
    rintro other hother rfl
    exact hcs hother
  exact ⟨(h.hasSymbol_iff (hne symbol hsymbol.isPrefix)).2 hsymbol.hasSymbol, hsymbol.isPrefix,
    fun other hother hstarts =>
      hsymbol.longest other ((h.hasSymbol_iff (hne other hstarts)).1 hother) hstarts⟩

/-! ### The same tokens -/

theorem passOneOf?_eq (h : DiffersAt name l l') {c : Cursor} (hc : ¬ name.toList <+: c.rest) :
    c.passOneOf? l'.symbolOperators = c.passOneOf? l.symbolOperators := by
  apply Option.ext
  rintro ⟨symbol, next⟩
  rw [passOneOf?_symbolOperators_iff, passOneOf?_symbolOperators_iff]
  exact and_congr_left fun _ => ⟨h.symm.isLongestSymbol hc, h.isLongestSymbol hc⟩

theorem nextToken_eq (h : DiffersAt name l l') {c : Cursor} (hc : ¬ name.toList <+: c.rest)
    (first : Char) :
    nextToken l' l'.symbolOperators first c = nextToken l l.symbolOperators first c := by
  rw [nextToken, nextToken, h.arrow_eq, h.passOneOf?_eq hc]

theorem tokensFrom_eq (h : DiffersAt name l l') (fuel : Nat) {c : Cursor}
    (hc : ¬ name.toList <:+: c.rest) :
    tokensFrom l' l'.symbolOperators fuel c = tokensFrom l l.symbolOperators fuel c := by
  induction fuel generalizing c with
  | zero => rfl
  | succ fuel ih =>
    have hpass : ∀ {d : Cursor}, ¬ name.toList <:+: d.rest → ∀ n,
        ¬ name.toList <:+: (d.pass n).rest :=
      fun hd n hwithin => hd (hwithin.trans (List.drop_suffix n _).isInfix)
    have hstart : ¬ name.toList <:+: c.skipBlank.rest := hpass hc _
    rw [tokensFrom, tokensFrom]
    simp only
    split
    · rfl
    · rename_i first hfirst
      have hprefix : ¬ name.toList <+: c.skipBlank.rest := fun hbegin => hstart hbegin.isInfix
      rw [h.nextToken_eq hprefix]
      -- what comes next is the same, and what is left behind it is shorter
      rcases hnext : nextToken l l.symbolOperators first c.skipBlank with fault | ⟨kind, next⟩
      · rfl
      · obtain ⟨-, n, -, rfl⟩ := nextToken_spec hfirst hnext
        rw [Except.ok_bind, Except.ok_bind, ih (hpass hstart n)]

/-- A text without the name is cut into the same tokens. -/
theorem tokenize_eq (h : DiffersAt name l l') {text : String}
    (htext : ¬ name.toList <:+: text.toList) (origin : Position) :
    tokenize l' text origin = tokenize l text origin :=
  h.tokensFrom_eq _ htext

end DiffersAt

end Language

/-! ### Tokens that do not spell the name -/

/-- Whether none of some tokens spells `name` as a name or an operator. -/
structure Tokens.Free (name : String) (ts : Tokens) : Prop where
  wellLexed : ts.WellLexed
  spelled : ∀ t ∈ ts.list, t.kind ≠ .name name ∧ t.kind ≠ .operator name

namespace Tokens.Free

variable {name : String} {ts rest : Tokens} {kinds : List TokenKind}

theorem passes (h : ts.Free name) (hpass : ts.Passes kinds rest) : rest.Free name := by
  refine ⟨hpass.wellLexed h.wellLexed, fun t ht => ?_⟩
  obtain ⟨passed, hlist, -⟩ := hpass
  exact h.spelled t (by rw [hlist]; exact List.mem_append_right _ ht)

theorem next_of_eq (h : ts.Free name) {kind : TokenKind} (hkind : ts.peek.kind = kind)
    (hne : kind ≠ .finish) : ts.next.Free name :=
  h.passes (passes_next_of_eq hkind hne)

theorem peek (h : ts.Free name) :
    ts.peek.kind ≠ .name name ∧ ts.peek.kind ≠ .operator name := by
  rcases hlist : ts.list with _ | ⟨t, more⟩
  · simp [Tokens.peek, hlist]
  · have ht : ts.peek = t := by simp [Tokens.peek, hlist]
    rw [ht]
    exact h.spelled t (by simp [hlist])

end Tokens.Free

/-- What a token spells stands in the text that it is cut from. -/
theorem TokenKind.IsCut.spelling_eq {l : Language} {behind cs : List Char} {kind : TokenKind}
    (h : kind.IsCut l behind cs) {name : String} (hkind : kind = .name name ∨ kind = .operator name) :
    cs = name.toList := by
  rcases hkind with rfl | rfl
  · cases h with
    | name _ _ => exact String.toList_ofList.symm
    | mark hmark _ =>
      unfold punctuation? at hmark
      split at hmark <;> cases hmark
  · exact h.isLongestSymbol.1

/-- The tokens of a text without the name do not spell it. -/
theorem free_of_tokenize {l : Language} {text name : String} {origin : Position} {ts : Tokens}
    (htext : ¬ name.toList <:+: text.toList) (h : tokenize l text origin = .ok ts) :
    ts.Free name := by
  have hcut : ∀ t ∈ ts.list, t.kind = .name name ∨ t.kind = .operator name → False := by
    intro t ht hkind
    obtain ⟨lead, xs, -, hfit, hchars, rfl⟩ := tokenize_eq_ok_iff.1 h
    have hmem : t.kind ∈ xs.map (·.kind) := by
      rw [← Piece.map_kind_place (origin.after lead)]
      exact List.mem_map_of_mem ht
    obtain ⟨x, hx, hxkind⟩ := List.mem_map.1 hmem
    obtain ⟨before, behind, rfl⟩ := List.append_of_mem hx
    cases hfit.behind with
    | cons _ hcut _ =>
      have hspelling := hcut.spelling_eq (hxkind ▸ hkind)
      refine htext ⟨lead ++ Piece.join before, x.blank ++ Piece.join behind, ?_⟩
      rw [hchars, Piece.join_append, Piece.join_cons, hspelling]
      simp only [List.append_assoc]
  exact ⟨tokenize_wellLexed h, fun t ht =>
    ⟨fun hname => hcut t ht (.inl hname), fun hoperator => hcut t ht (.inr hoperator)⟩⟩

/-! ### The same trees -/

/-- Whether two parsers do the same with tokens that do not spell `name`. -/
def ExprParser.AgreesWithout (name : String) (p q : ExprParser) : Prop :=
  ∀ least ts, ts.Free name → q least ts = p least ts

section

variable {l l' : Language} {name : String} {p q : ExprParser} {ts : Tokens}

theorem parseMoreArguments_congr (hp : Faithful p) (hpq : p.AgreesWithout name q)
    (close : TokenKind) (start : Position) (fuel : Nat) (hts : ts.Free name) :
    parseMoreArguments q close start fuel ts = parseMoreArguments p close start fuel ts := by
  induction fuel generalizing ts with
  | zero => rfl
  | succ fuel ih =>
    rw [parseMoreArguments, parseMoreArguments, hpq 0 ts hts]
    refine Except.bind_congr_ok ?_
    rintro ⟨argument, rest⟩ hargument
    have hrest := hts.passes (hp hts.wellLexed hargument)
    simp only
    split
    · rename_i hcomma
      rw [ih (hrest.next_of_eq hcomma (by simp))]
    · rfl

theorem parseArguments_congr (hp : Faithful p) (hpq : p.AgreesWithout name q)
    (close : TokenKind) (start : Position) (hts : ts.Free name) :
    parseArguments q close start ts = parseArguments p close start ts := by
  rw [parseArguments, parseArguments, parseMoreArguments_congr hp hpq close start _ hts]

namespace Language.DiffersAt

theorem operatorAt?_eq (h : DiffersAt name l l') (hts : ts.Free name) (fixity : Fixity)
    (least : Precedence) : operatorAt? l' fixity least ts = operatorAt? l fixity least ts := by
  have hpeek := hts.peek
  rw [operatorAt?, operatorAt?]
  split
  · rename_i symbol hkind
    rw [hkind] at hpeek
    rw [h.operator?_eq symbol fixity fun heq => hpeek.2 (by rw [heq])]
  · rename_i spelling hkind
    rw [hkind] at hpeek
    rw [h.operator?_eq spelling fixity fun heq => hpeek.1 (by rw [heq])]
  · rfl

theorem parseOperators_eq (h : DiffersAt name l l') (hp : Faithful p)
    (hpq : p.AgreesWithout name q) (least : Precedence) (fuel : Nat) (left : Expr)
    (hts : ts.Free name) :
    parseOperators l' q least fuel left ts = parseOperators l p least fuel left ts := by
  induction fuel generalizing left ts with
  | zero => rfl
  | succ fuel ih =>
    rw [parseOperators, parseOperators, h.operatorAt?_eq hts, h.operatorAt?_eq hts]
    simp only
    split
    · rename_i o hafter
      exact ih _ (hts.passes (passes_operatorAt? hts.wellLexed hafter))
    · split
      · rfl
      · rename_i o hbinary
        have hnext := hts.passes (passes_operatorAt? hts.wellLexed hbinary)
        rw [hpq _ _ hnext]
        refine Except.bind_congr_ok ?_
        rintro ⟨right, rest⟩ hright
        exact ih _ (hnext.passes (hp hnext.wellLexed hright))

theorem checkParameters_eq (h : DiffersAt name l l') (earlier : List String)
    (parameters : List Parameter) :
    checkParameters l' earlier parameters = checkParameters l earlier parameters := by
  induction parameters generalizing earlier with
  | nil => rfl
  | cons parameter parameters ih =>
    rw [checkParameters, checkParameters, isKeyword, isKeyword, h.keywords_eq, ih]

theorem parseLambda_eq (h : DiffersAt name l l') (hpq : p.AgreesWithout name q)
    (parameters : List Parameter) (position : Position) (hts : ts.Free name) :
    parseLambda l' q parameters position ts = parseLambda l p parameters position ts := by
  rw [parseLambda, parseLambda, h.checkParameters_eq, hpq 0 ts hts]

theorem parsePrimary_eq (h : DiffersAt name l l') (hp : Faithful p)
    (hpq : p.AgreesWithout name q) (hts : ts.Free name) :
    parsePrimary l' q ts = parsePrimary l p ts := by
  unfold parsePrimary
  simp only
  split
  · rfl
  · rfl
  · rename_i spelling hkind
    have hname := hts.next_of_eq hkind (by simp)
    split
    · rename_i harrow
      exact h.parseLambda_eq hpq _ _ (hname.next_of_eq harrow (by simp))
    · rename_i hparen
      rw [parseArguments_congr hp hpq _ _ (hname.next_of_eq hparen (by simp))]
    · rename_i hbracket
      rw [parseArguments_congr hp hpq _ _ (hname.next_of_eq hbracket (by simp))]
    · rfl
  · rename_i hparen
    have hopen := hts.next_of_eq hparen (by simp)
    split
    · rename_i hhead
      exact h.parseLambda_eq hpq _ _ (hts.passes (lambdaHead?_passes hts.wellLexed hparen hhead))
    · rw [parseArguments_congr hp hpq _ _ hopen]
  · rfl
  · rfl

theorem parseOperand_eq (h : DiffersAt name l l') (hp : Faithful p)
    (hpq : p.AgreesWithout name q) (hts : ts.Free name) :
    parseOperand l' q ts = parseOperand l p ts := by
  rw [parseOperand, parseOperand, h.operatorAt?_eq hts, h.parsePrimary_eq hp hpq hts]
  split
  · rename_i o hbefore
    rw [hpq _ _ (hts.passes (passes_operatorAt? hts.wellLexed hbefore))]
  · rfl

/-- Tokens that do not spell the name are parsed in the same way, whatever the number of levels. -/
theorem parseOperation_eq (h : DiffersAt name l l') (levels : Nat) :
    (parseOperation l levels).AgreesWithout name (parseOperation l' levels) := by
  induction levels with
  | zero => exact fun _ _ _ => rfl
  | succ levels ih =>
    intro least ts hts
    have hp := parseOperation_faithful l levels
    rw [parseOperation, parseOperation, h.parseOperand_eq hp ih hts]
    refine Except.bind_congr_ok ?_
    rintro ⟨left, rest⟩ hleft
    exact h.parseOperators_eq hp ih _ _ _ (hts.passes (parseOperand_passes hp hts.wellLexed hleft))

end Language.DiffersAt

end

/-- With one operator more, or another one of its name and fixity, a text that does not contain its
name has the same tree, with the same places and operators, or the same fault. -/
theorem parseExpression_withOperator (l : Language) (o : Operator) {text : String}
    (origin : Position) (h : ¬ o.name.toList <:+: text.toList) :
    parseExpression (l.withOperator o) text origin = parseExpression l text origin := by
  have hdiffers := l.withOperator_differsAt o
  rw [parseExpression, parseExpression, hdiffers.tokenize_eq h]
  refine Except.bind_congr_ok fun ts hts => ?_
  rw [hdiffers.parseOperation_eq maximalNesting 0 ts (free_of_tokenize h hts)]

/-- A new symbol that begins like an old one and ends like another, none of which is split in a new
way. -/
theorem parseExpression_withOperator_overlapping :
    ¬ "<==".toList <:+: "A.Where(x => x <= 1 == !x.B[0])".toList ∧
      ∃ e, parseExpression .standard "A.Where(x => x <= 1 == !x.B[0])" .start = .ok e ∧
        parseExpression (Language.standard.withOperator ⟨"<==", .binary, 45⟩)
          "A.Where(x => x <= 1 == !x.B[0])" .start = .ok e := by
  have hfree : ¬ "<==".toList <:+: "A.Where(x => x <= 1 == !x.B[0])".toList := by decide +kernel
  obtain ⟨e, he⟩ := Except.exists_of_isOk (show (parseExpression .standard
    "A.Where(x => x <= 1 == !x.B[0])" .start).isOk by decide +kernel)
  exact ⟨hfree, e, he, (parseExpression_withOperator .standard ⟨"<==", .binary, 45⟩ .start
    hfree).trans he⟩

end DocQuery
