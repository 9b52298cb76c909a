/-
Writing a syntax tree out again.

* `Expr.tokens` — the tokens of a tree from left to right;
* `Tokens.Passes` — what is left behind tokens of given kinds;
* `Faithful` — a parser passes exactly the tokens of the tree that it gives back;
* `parseOperation_faithful` — the parser of expressions is faithful.

Design notes: the head of a lambda with one parameter has parentheses or has none. Which of them were
written shows in the places: without parentheses the lambda begins at its parameter. The recursion of
the parser is on levels, so each of its parts is faithful over any faithful parser for what it
contains.
-/
import DocQuery.Expr.Parser
import DocQuery.Proofs.Expr.Lexing

namespace DocQuery

/-! ### The tokens of a tree -/

/-- The token that an operator is spelled with. -/
def Operator.token (o : Operator) : TokenKind :=
  if o.name.toList.head?.any Text.isNameStart then .name o.name else .operator o.name

/-- Names with commas between them. -/
def listedNames : List String → List TokenKind
  | [] => []
  | [name] => [.name name]
  | name :: names => .name name :: .comma :: listedNames names

/-- The tokens before the arrow of a lambda that stands at `position`. -/
def headTokens (position : Position) (parameters : List Parameter) : List TokenKind :=
  let bare := parameters.map (·.position) = [position]
  if bare then listedNames (parameters.map (·.name))
  else .leftParen :: listedNames (parameters.map (·.name)) ++ [.rightParen]

namespace Expr

mutual

/-- The tokens of a tree from left to right. -/
def tokens : Expr → List TokenKind
  | name spelling _ => [.name spelling]
  | number digits _ => [.number digits]
  | text content _ => [.text content]
  | binary o left right _ => tokens left ++ o.token :: tokens right
  | before o operand _ => o.token :: tokens operand
  | after o operand _ => tokens operand ++ [o.token]
  | group inner _ => .leftParen :: tokens inner ++ [.rightParen]
  | call function arguments _ =>
    .name function :: .leftParen :: tokensOfAll arguments ++ [.rightParen]
  | index array indexes _ =>
    .name array :: .leftBracket :: tokensOfAll indexes ++ [.rightBracket]
  | lambda parameters body position => headTokens position parameters ++ .arrow :: tokens body

/-- The tokens of several trees with commas between them. -/
def tokensOfAll : List Expr → List TokenKind
  | [] => []
  | e :: es => tokens e ++ tokensOfMore es

/-- The tokens of several trees with a comma before each of them. -/
def tokensOfMore : List Expr → List TokenKind
  | [] => []
  | e :: es => .comma :: tokens e ++ tokensOfMore es

end

theorem tokens_ne_nil (e : Expr) : e.tokens ≠ [] := by
  cases e <;> simp [tokens]

theorem tokensOfMore_eq {es : List Expr} (h : es ≠ []) :
    tokensOfMore es = .comma :: tokensOfAll es := by
  cases es with
  | nil => exact absurd rfl h
  | cons e es => simp [tokensOfMore, tokensOfAll]

end Expr

/-! ### Passing tokens -/

namespace Tokens

/-- The kinds of tokens. -/
def kinds (ts : Tokens) : List TokenKind := ts.list.map (·.kind)

/-- Whether `rest` is what is left of `ts` behind tokens of these kinds. -/
def Passes (ts : Tokens) (kinds : List TokenKind) (rest : Tokens) : Prop :=
  ∃ passed, ts.list = passed ++ rest.list ∧ passed.map (·.kind) = kinds

theorem Passes.refl (ts : Tokens) : ts.Passes [] ts := ⟨[], rfl, rfl⟩

theorem Passes.trans {ts mid rest : Tokens} {as bs : List TokenKind} (h : ts.Passes as mid)
    (h' : mid.Passes bs rest) : ts.Passes (as ++ bs) rest := by
  obtain ⟨passed, hlist, rfl⟩ := h
  obtain ⟨more, hmore, rfl⟩ := h'
  exact ⟨passed ++ more, by rw [hlist, hmore, List.append_assoc], by simp⟩

theorem Passes.kinds_eq {ts rest : Tokens} {as : List TokenKind} (h : ts.Passes as rest) :
    ts.kinds = as ++ rest.kinds := by
  obtain ⟨passed, hlist, rfl⟩ := h
  simp [kinds, hlist]

theorem Passes.length_eq {ts rest : Tokens} {as : List TokenKind} (h : ts.Passes as rest) :
    ts.list.length = as.length + rest.list.length := by
  obtain ⟨passed, hlist, rfl⟩ := h
  simp [hlist]

theorem Passes.wellLexed {ts rest : Tokens} {as : List TokenKind} (h : ts.Passes as rest)
    (hts : ts.WellLexed) : rest.WellLexed := by
  obtain ⟨passed, hlist, -⟩ := h
  have hsub : rest.list.Sublist ts.list := hlist ▸ List.sublist_append_right _ _
  exact ⟨fun t ht => hts.spelled t (hsub.subset ht), hts.ordered.sublist hsub⟩

theorem list_eq_of_peek {ts : Tokens} (h : ts.peek.kind ≠ .finish) :
    ts.list = ts.peek :: ts.next.list := by
  rcases hlist : ts.list with _ | ⟨t, rest⟩
  · exact absurd (by simp [peek, hlist]) h
  · simp [peek, next, drop, hlist]

theorem passes_next {ts : Tokens} (h : ts.peek.kind ≠ .finish) :
    ts.Passes [ts.peek.kind] ts.next :=
  ⟨[ts.peek], list_eq_of_peek h, rfl⟩

/-- The next token is passed by its kind. -/
theorem passes_next_of_eq {ts : Tokens} {kind : TokenKind} (hkind : ts.peek.kind = kind)
    (h : kind ≠ .finish) : ts.Passes [kind] ts.next :=
  hkind ▸ passes_next (hkind ▸ h)

/-- Of well lexed tokens only the end has the kind of an end. -/
theorem WellLexed.list_eq_nil {ts : Tokens} (hts : ts.WellLexed) (h : ts.peek.kind = .finish) :
    ts.list = [] := by
  rcases hlist : ts.list with _ | ⟨t, rest⟩
  · rfl
  · have hspelled := hts.spelled t (by simp [hlist])
    have hkind : t.kind = .finish := by simpa [peek, hlist] using h
    rw [hkind] at hspelled
    exact absurd hspelled (by simp [TokenKind.IsSpelled])

end Tokens

/-! ### Operators -/

theorem Language.operator?_eq_some {l : Language} {name : String} {fixity : Fixity} {o : Operator}
    (h : l.operator? name fixity = some o) : o ∈ l.operators ∧ o.name = name := by
  refine ⟨List.mem_of_find?_eq_some h, ?_⟩
  have hfound := List.find?_some h
  simp only [Bool.and_eq_true, beq_iff_eq] at hfound
  exact hfound.1

/-- An operator that was found binds tightly enough, and is spelled by the next token. -/
theorem operatorAt?_eq_some {l : Language} {fixity : Fixity} {least : Precedence} {ts : Tokens}
    {o : Operator} (hts : ts.WellLexed) (h : operatorAt? l fixity least ts = some o) :
    o ∈ l.operators ∧ ts.peek.kind = o.token := by
  unfold operatorAt? at h
  obtain ⟨hfound, -⟩ := Option.filter_eq_some_iff.mp h
  have hspelled : ts.peek.kind ≠ .finish → ts.peek.kind.IsSpelled := fun hne =>
    hts.spelled _ (by rw [Tokens.list_eq_of_peek hne]; simp)
  split at hfound
  · rename_i symbol hkind
    obtain ⟨hmem, rfl⟩ := Language.operator?_eq_some hfound
    rw [hkind] at hspelled ⊢
    have hsymbol := hspelled (by simp)
    rw [TokenKind.IsSpelled] at hsymbol
    exact ⟨hmem, by simp [Operator.token, hsymbol]⟩
  · rename_i spelling hkind
    obtain ⟨hmem, rfl⟩ := Language.operator?_eq_some hfound
    rw [hkind] at hspelled ⊢
    have hname := hspelled (by simp)
    rw [TokenKind.IsSpelled] at hname
    exact ⟨hmem, by simp [Operator.token, hname]⟩
  · simp at hfound

theorem Operator.token_ne_finish (o : Operator) : o.token ≠ .finish := by
  unfold Operator.token
  split <;> simp

theorem passes_operatorAt? {l : Language} {fixity : Fixity} {least : Precedence} {ts : Tokens}
    {o : Operator} (hts : ts.WellLexed) (h : operatorAt? l fixity least ts = some o) :
    ts.Passes [o.token] ts.next :=
  Tokens.passes_next_of_eq (operatorAt?_eq_some hts h).2 o.token_ne_finish

/-! ### The parser passes what it reads -/

/-- A parser that passes exactly the tokens of the tree that it gives back. -/
def Faithful (parse : ExprParser) : Prop :=
  ∀ ⦃least : Precedence⦄ ⦃ts rest : Tokens⦄ ⦃e : Expr⦄, ts.WellLexed →
    parse least ts = .ok (e, rest) → ts.Passes e.tokens rest

section

variable {l : Language} {parse : ExprParser} {ts rest : Tokens} {position start : Position}
  {close : TokenKind} {fuel : Nat} {e : Expr} {es : List Expr} {parameters : List Parameter}

theorem Faithful.length_lt {least : Precedence} (hparse : Faithful parse) (hts : ts.WellLexed)
    (h : parse least ts = .ok (e, rest)) : rest.list.length < ts.list.length := by
  have hlength := (hparse hts h).length_eq
  have hpos := List.length_pos_of_ne_nil e.tokens_ne_nil
  omega

/-- Operators and their right operands go on with the tokens of the expression before them. -/
theorem parseOperators_passes {least : Precedence} {left : Expr} (hparse : Faithful parse)
    (hts : ts.WellLexed) (h : parseOperators l parse least fuel left ts = .ok (e, rest)) :
    ∃ kinds, ts.Passes kinds rest ∧ e.tokens = left.tokens ++ kinds := by
  induction fuel generalizing left ts with
  | zero =>
    cases h
    exact ⟨[], .refl _, by simp⟩
  | succ fuel ih =>
    rw [parseOperators] at h
    simp only at h
    split at h
    · rename_i o hafter
      have hpass := passes_operatorAt? hts hafter
      obtain ⟨kinds, hkinds, htokens⟩ := ih (hpass.wellLexed hts) h
      exact ⟨o.token :: kinds, hpass.trans hkinds, by simp [htokens, Expr.tokens]⟩
    · split at h
      · cases h
        exact ⟨[], .refl _, by simp⟩
      · rename_i o hbinary
        obtain ⟨⟨right, mid⟩, hright, h⟩ := Except.bind_eq_ok_iff.mp h
        have hpass := passes_operatorAt? hts hbinary
        have hpass' := hpass.trans (hparse (hpass.wellLexed hts) hright)
        obtain ⟨kinds, hkinds, htokens⟩ := ih (hpass'.wellLexed hts) h
        refine ⟨o.token :: right.tokens ++ kinds, hpass'.trans hkinds, ?_⟩
        simp [htokens, Expr.tokens]

theorem parseMoreArguments_passes (hparse : Faithful parse) (hts : ts.WellLexed)
    (hclose : close ≠ .finish) (hfuel : ts.list.length < fuel)
    (h : parseMoreArguments parse close start fuel ts = .ok (es, rest)) :
    es ≠ [] ∧ ts.Passes (Expr.tokensOfAll es ++ [close]) rest := by
  induction fuel generalizing ts es with
  | zero => exact absurd hfuel (Nat.not_lt_zero _)
  | succ fuel ih =>
    rw [parseMoreArguments] at h
    obtain ⟨⟨argument, mid⟩, hargument, h⟩ := Except.bind_eq_ok_iff.mp h
    have hpass := hparse hts hargument
    have hmid := hpass.wellLexed hts
    simp only at h
    split at h
    · -- a comma: there is one argument more, and the tokens get fewer
      rename_i hcomma
      obtain ⟨⟨arguments, last⟩, hmore, h⟩ := Except.bind_eq_ok_iff.mp h
      cases h
      have hnext := Tokens.passes_next_of_eq hcomma (by simp)
      have hlength := hnext.length_eq
      have hshorter := hparse.length_lt hts hargument
      obtain ⟨hne, hlast⟩ := ih (hnext.wellLexed hmid) (by omega) hmore
      refine ⟨by simp, ?_⟩
      have hall := hpass.trans (hnext.trans hlast)
      simpa [Expr.tokensOfAll, Expr.tokensOfMore_eq hne] using hall
    · split at h
      · rename_i hkind
        cases h
        have hall := hpass.trans (Tokens.passes_next_of_eq hkind hclose)
        exact ⟨by simp, by simpa [Expr.tokensOfAll, Expr.tokensOfMore] using hall⟩
      · split at h <;> simp at h

theorem parseArguments_passes (hparse : Faithful parse) (hts : ts.WellLexed)
    (hclose : close ≠ .finish) (h : parseArguments parse close start ts = .ok (es, rest)) :
    ts.Passes (Expr.tokensOfAll es ++ [close]) rest := by
  unfold parseArguments at h
  split at h
  · rename_i hkind
    cases h
    simpa [Expr.tokensOfAll] using Tokens.passes_next_of_eq hkind hclose
  · exact (parseMoreArguments_passes hparse hts hclose (Nat.lt_succ_self _) h).2

/-- The parameters in parentheses before an arrow, with their places. -/
theorem parametersBefore?_spec {list body : List Token}
    (h : parametersBefore? list = some (parameters, body)) :
    ∃ passed, list = passed ++ body ∧ parameters ≠ [] ∧
      passed.map (·.kind) = listedNames (parameters.map (·.name)) ++ [.rightParen, .arrow] ∧
      ∀ p ∈ parameters, ∃ t ∈ passed, t.position = p.position := by
  fun_induction parametersBefore? list generalizing parameters body with
  | case1 name position comma ts ih =>
    obtain ⟨⟨more, rest⟩, hmore, h⟩ := Option.bind_eq_some_iff.mp h
    cases h
    obtain ⟨passed, rfl, hne, hkinds, hplaces⟩ := ih hmore
    refine ⟨⟨.name name, position⟩ :: ⟨.comma, comma⟩ :: passed, rfl, by simp, ?_, ?_⟩
    · rcases hnames : more.map (·.name) with _ | ⟨first, others⟩
      · exact absurd (List.map_eq_nil_iff.mp hnames) hne
      · rw [hnames] at hkinds
        simp [hnames, listedNames, hkinds]
    · intro p hp
      rcases List.mem_cons.mp hp with rfl | hp
      · exact ⟨_, List.mem_cons_self, rfl⟩
      · obtain ⟨t, ht, hpos⟩ := hplaces p hp
        exact ⟨t, List.mem_cons_of_mem _ (List.mem_cons_of_mem _ ht), hpos⟩
  | case2 name position paren arrow ts =>
    cases h
    refine ⟨[⟨.name name, position⟩, ⟨.rightParen, paren⟩, ⟨.arrow, arrow⟩], rfl, by simp,
      by simp [listedNames], ?_⟩
    intro p hp
    rw [List.mem_singleton] at hp
    exact ⟨_, List.mem_cons_self, by rw [hp]⟩
  | case3 => simp at h

theorem lambdaHead?_spec {list body : List Token}
    (h : lambdaHead? list = some (parameters, body)) :
    ∃ passed, list = passed ++ body ∧
      passed.map (·.kind) = listedNames (parameters.map (·.name)) ++ [.rightParen, .arrow] ∧
      ∀ p ∈ parameters, ∃ t ∈ passed, t.position = p.position := by
  unfold lambdaHead? at h
  split at h
  · cases h
    exact ⟨[_, _], rfl, rfl, by simp⟩
  · obtain ⟨passed, hlist, -, hkinds, hplaces⟩ := parametersBefore?_spec h
    exact ⟨passed, hlist, hkinds, hplaces⟩

/-- A head in parentheses is passed up to and with its arrow. Its parameters stand behind the
parenthesis, so none of them stands where the lambda does. -/
theorem lambdaHead?_passes (hts : ts.WellLexed) (hparen : ts.peek.kind = .leftParen)
    {body : List Token} (h : lambdaHead? ts.next.list = some (parameters, body)) :
    ts.Passes (headTokens ts.peek.position parameters ++ [.arrow]) ⟨body, ts.finish⟩ := by
  obtain ⟨passed, hlist, hkinds, hplaces⟩ := lambdaHead?_spec h
  have hts_eq := @Tokens.list_eq_of_peek ts (by simp [hparen])
  have hbehind : ∀ t ∈ ts.next.list, ts.peek.position.Before t.position := by
    have hordered := hts.ordered
    rw [hts_eq] at hordered
    exact (List.pairwise_cons.mp hordered).1
  -- a parameter stands behind the parenthesis, so this is not a lambda without parentheses
  have hbare : ¬ parameters.map (·.position) = [ts.peek.position] := by
    intro hbare
    obtain ⟨p, rfl, hp⟩ := List.map_eq_singleton_iff.mp hbare
    obtain ⟨t, ht, hpos⟩ := hplaces p (by simp)
    have hbefore := hbehind t (by rw [hlist]; exact List.mem_append_left _ ht)
    rw [hpos, hp] at hbefore
    exact hbefore.ne rfl
  refine ⟨ts.peek :: passed, by rw [hts_eq, hlist]; rfl, ?_⟩
  simp [headTokens, hbare, hparen, hkinds]

theorem parseLambda_passes (hparse : Faithful parse) (hts : ts.WellLexed)
    (h : parseLambda l parse parameters position ts = .ok (e, rest)) :
    ∃ body, e = .lambda parameters body position ∧ ts.Passes body.tokens rest := by
  obtain ⟨-, -, h⟩ := Except.bind_eq_ok_iff.mp h
  obtain ⟨⟨body, last⟩, hbody, h⟩ := Except.bind_eq_ok_iff.mp h
  cases h
  exact ⟨body, rfl, hparse hts hbody⟩

theorem parsePrimary_passes (hparse : Faithful parse) (hts : ts.WellLexed)
    (h : parsePrimary l parse ts = .ok (e, rest)) : ts.Passes e.tokens rest := by
  -- each branch passes what it has looked at, and the parsers inside pass the rest
  unfold parsePrimary at h
  simp only at h
  split at h
  · rename_i digits hkind
    cases h
    exact Tokens.passes_next_of_eq hkind (by simp)
  · rename_i content hkind
    cases h
    exact Tokens.passes_next_of_eq hkind (by simp)
  · rename_i spelling hkind
    have hname := Tokens.passes_next_of_eq hkind (by simp)
    have hnext := hname.wellLexed hts
    split at h
    · rename_i harrow
      have hhead := hname.trans (Tokens.passes_next_of_eq harrow (by simp))
      obtain ⟨body, rfl, hbody⟩ := parseLambda_passes hparse (hhead.wellLexed hts) h
      simpa [Expr.tokens, headTokens, listedNames] using hhead.trans hbody
    · rename_i hparen
      obtain ⟨⟨arguments, last⟩, harguments, h⟩ := Except.bind_eq_ok_iff.mp h
      cases h
      have hhead := hname.trans (Tokens.passes_next_of_eq hparen (by simp))
      have hall := hhead.trans
        (parseArguments_passes hparse (hhead.wellLexed hts) (by simp) harguments)
      simpa [Expr.tokens] using hall
    · rename_i hbracket
      obtain ⟨⟨indexes, last⟩, hindexes, h⟩ := Except.bind_eq_ok_iff.mp h
      simp only at h
      split at h
      · simp at h
      · cases h
        have hhead := hname.trans (Tokens.passes_next_of_eq hbracket (by simp))
        have hall := hhead.trans
          (parseArguments_passes hparse (hhead.wellLexed hts) (by simp) hindexes)
        simpa [Expr.tokens] using hall
    · cases h
      exact hname
  · rename_i hparen
    split at h
    · rename_i body hhead
      have hpass := lambdaHead?_passes hts hparen hhead
      obtain ⟨inner, rfl, hinner⟩ := parseLambda_passes hparse (hpass.wellLexed hts) h
      simpa [Expr.tokens] using hpass.trans hinner
    · obtain ⟨⟨arguments, last⟩, harguments, h⟩ := Except.bind_eq_ok_iff.mp h
      have hopen := Tokens.passes_next_of_eq hparen (by simp)
      have hall := hopen.trans
        (parseArguments_passes hparse (hopen.wellLexed hts) (by simp) harguments)
      simp only at h
      split at h
      · cases h
        simpa [Expr.tokens, Expr.tokensOfAll, Expr.tokensOfMore] using hall
      · simp at h
  · simp at h
  · simp at h

theorem parseOperand_passes (hparse : Faithful parse) (hts : ts.WellLexed)
    (h : parseOperand l parse ts = .ok (e, rest)) : ts.Passes e.tokens rest := by
  unfold parseOperand at h
  split at h
  · rename_i o hbefore
    split at h
    · exact parsePrimary_passes hparse hts h
    · obtain ⟨⟨operand, last⟩, hoperand, h⟩ := Except.bind_eq_ok_iff.mp h
      cases h
      have hpass := passes_operatorAt? hts hbefore
      exact hpass.trans (hparse (hpass.wellLexed hts) hoperand)
  · exact parsePrimary_passes hparse hts h

end

/-- The parser of expressions is faithful, whatever the number of levels. -/
theorem parseOperation_faithful (l : Language) (levels : Nat) :
    Faithful (parseOperation l levels) := by
  induction levels with
  | zero =>
    intro least ts rest e _ h
    simp [parseOperation] at h
  | succ levels ih =>
    intro least ts rest e hts h
    rw [parseOperation] at h
    obtain ⟨⟨left, mid⟩, hleft, h⟩ := Except.bind_eq_ok_iff.mp h
    have hpass := parseOperand_passes ih hts hleft
    obtain ⟨kinds, hkinds, htokens⟩ := parseOperators_passes ih (hpass.wellLexed hts) h
    rw [htokens]
    exact hpass.trans hkinds

end DocQuery
