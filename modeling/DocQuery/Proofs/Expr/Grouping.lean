/-
How operators group their operands.

* `Expr.isGrouped` — every operand of a tree binds as tightly as its operator demands;
* `Settled` — what is true of a tree that was read, and of the tokens left behind it;
* `parseOperation_settled` — the parser of expressions reads nothing else;
* `parseExpression_writes_and_groups` — a text has the tokens of its tree, and its tree is grouped.

Design notes: an operand is judged only by its own operator; parentheses, calls and the rest bind as
tightly as anything. What decides the left operand is the token behind it: an operation is complete
where the next operator binds less tightly than its last operand may, and a later operator of the
chain is such an operator. Where the highest precedence has an operator of its own, the right
operands of that one are not grouped, so a language is taken in which it has none.
-/
import DocQuery.Proofs.Expr.Writing

namespace DocQuery

namespace Expr

/-- Whether a tree is no operation between or before operators, or one of precedence `p` at least.
-/
def bindsFrom (p : Precedence) : Expr → Bool
  | binary o _ _ _ | after o _ _ => p ≤ o.precedence
  | _ => true

/-- Whether a tree may be the right operand of a binary operator of precedence `p`: it is no
binary operation and none behind its operand, or one of a higher precedence. -/
def fitsRightOf (p : Precedence) : Expr → Bool
  | binary o _ _ _ | after o _ _ => p < o.precedence
  | _ => true

/-- Whether a tree may stand before an operator of precedence `p`: it is no binary operation of a
lower precedence, and no operation before its operand of a lower or the same precedence. -/
def fitsLeftOf (p : Precedence) : Expr → Bool
  | binary o _ _ _ => p ≤ o.precedence
  | before o _ _ => p < o.precedence
  | _ => true

mutual

/-- Whether every operand of a tree binds as tightly as its operator demands. -/
def isGrouped : Expr → Bool
  | name _ _ | number _ _ | text _ _ => true
  | binary o left right _ =>
    left.fitsLeftOf o.precedence && right.fitsRightOf o.precedence && isGrouped left &&
      isGrouped right
  | before o operand _ => operand.bindsFrom o.precedence && isGrouped operand
  | after o operand _ => operand.fitsLeftOf o.precedence && isGrouped operand
  | group inner _ => isGrouped inner
  | call _ arguments _ => areGrouped arguments
  | index _ indexes _ => areGrouped indexes
  | lambda _ body _ => isGrouped body

/-- Whether all of several trees are grouped. -/
def areGrouped : List Expr → Bool
  | [] => true
  | e :: es => isGrouped e && areGrouped es

end

end Expr

/-! ### Precedences -/

theorem operatorAt?_of_le {l : Language} {fixity : Fixity} {least p : Precedence} {ts : Tokens}
    {o : Operator} (h : operatorAt? l fixity least ts = some o) (hp : p ≤ o.precedence) :
    operatorAt? l fixity p ts = some o := by
  unfold operatorAt? at h ⊢
  obtain ⟨hfound, -⟩ := Option.filter_eq_some_iff.mp h
  exact Option.filter_eq_some_iff.mpr ⟨hfound, by simpa using hp⟩

theorem operatorAt?_least {l : Language} {fixity : Fixity} {least : Precedence} {ts : Tokens}
    {o : Operator} (h : operatorAt? l fixity least ts = some o) : least ≤ o.precedence := by
  unfold operatorAt? at h
  simpa using (Option.filter_eq_some_iff.mp h).2

theorem Precedence.lt_of_tighter_le {p q : Precedence} (hp : p < 255)
    (h : Precedence.tighter p ≤ q) : p < q := by
  unfold Precedence.tighter at h
  rw [UInt8.lt_iff_toNat_lt] at hp ⊢
  rw [if_neg (by rintro rfl; simp at hp), UInt8.le_iff_toNat_le, UInt8.toNat_add] at h
  simp at hp h
  omega

theorem Precedence.le_of_lt_tighter {p q : Precedence} (h : q < Precedence.tighter p) : q ≤ p := by
  unfold Precedence.tighter at h
  split at h
  · exact UInt8.le_of_lt h
  · rename_i hne
    rw [UInt8.lt_iff_toNat_lt, UInt8.toNat_add] at h
    rw [UInt8.le_iff_toNat_le]
    have hlt : p.toNat < 256 := p.toNat_lt
    simp at h
    omega

/-- Whether no operator behind or between operands comes next that binds at least as tightly as
`least`. -/
def Language.StopsAt (l : Language) (least : Precedence) (ts : Tokens) : Prop :=
  operatorAt? l .after least ts = none ∧ operatorAt? l .binary least ts = none

/-- The operator that comes next binds less tightly than those at which the language stops. -/
theorem Language.StopsAt.lt {l : Language} {least p : Precedence} {ts : Tokens} {o : Operator}
    {fixity : Fixity} (hfixity : fixity = .after ∨ fixity = .binary) (h : l.StopsAt p ts)
    (ho : operatorAt? l fixity least ts = some o) : o.precedence < p := by
  refine UInt8.not_le.mp fun hp => ?_
  have hfound := operatorAt?_of_le ho hp
  rcases hfixity with rfl | rfl
  · rw [h.1] at hfound
    simp at hfound
  · rw [h.2] at hfound
    simp at hfound

/-! ### The parser groups what it reads -/

namespace Expr

/-- Whether the operation that a tree is cannot go on with the tokens `ts`. -/
def ClosedBefore (l : Language) (ts : Tokens) : Expr → Prop
  | binary o _ _ _ => l.StopsAt o.precedence.tighter ts
  | before o _ _ => l.StopsAt o.precedence ts
  | _ => True

theorem ClosedBefore.fitsLeftOf {l : Language} {least : Precedence} {ts : Tokens} {o : Operator}
    {fixity : Fixity} {e : Expr} (hfixity : fixity = .after ∨ fixity = .binary)
    (h : e.ClosedBefore l ts) (ho : operatorAt? l fixity least ts = some o) :
    e.fitsLeftOf o.precedence := by
  cases e with
  | binary => exact decide_eq_true (Precedence.le_of_lt_tighter (Language.StopsAt.lt hfixity h ho))
  | before => exact decide_eq_true (Language.StopsAt.lt hfixity h ho)
  | _ => rfl

theorem fitsRightOf_of_bindsFrom {p : Precedence} {e : Expr} (hp : p < 255)
    (h : e.bindsFrom (Precedence.tighter p)) : e.fitsRightOf p := by
  cases e with
  | binary | after =>
    exact decide_eq_true (Precedence.lt_of_tighter_le hp (of_decide_eq_true h))
  | _ => rfl

end Expr

/-- What is true of the tree `e` that was read, down to operators of precedence `least`, with
`rest` left behind it. -/
structure Settled (l : Language) (least : Precedence) (e : Expr) (rest : Tokens) : Prop where
  grouped : e.isGrouped
  binds : e.bindsFrom least
  closed : e.ClosedBefore l rest
  stops : l.StopsAt least rest

/-- A parser that reads nothing but settled trees. -/
def Settles (l : Language) (parse : ExprParser) : Prop :=
  ∀ ⦃least : Precedence⦄ ⦃ts rest : Tokens⦄ ⦃e : Expr⦄, ts.WellLexed →
    parse least ts = .ok (e, rest) → Settled l least e rest

section

variable {l : Language} {parse : ExprParser} {ts rest : Tokens} {position start : Position}
  {close : TokenKind} {fuel : Nat} {e : Expr} {es : List Expr} {parameters : List Parameter}

theorem parseOperators_settled {least : Precedence} {left : Expr}
    (hbelow : ∀ o ∈ l.operators, o.precedence < 255) (hparse : Faithful parse)
    (hsettles : Settles l parse) (hts : ts.WellLexed) (hfuel : ts.list.length < fuel)
    (hgrouped : left.isGrouped) (hbinds : left.bindsFrom least) (hclosed : left.ClosedBefore l ts)
    (h : parseOperators l parse least fuel left ts = .ok (e, rest)) : Settled l least e rest := by
  induction fuel generalizing left ts with
  | zero => exact absurd hfuel (Nat.not_lt_zero _)
  | succ fuel ih =>
    rw [parseOperators] at h
    simp only at h
    split at h
    · -- behind an operand: what was read is its operand, and the whole is closed to the right
      rename_i o hafter
      have hpass := passes_operatorAt? hts hafter
      have hlength := hpass.length_eq
      refine ih (hpass.wellLexed hts) (by simp at hlength; omega) ?_ ?_ ?_ h
      · simp [Expr.isGrouped, hclosed.fitsLeftOf (.inl rfl) hafter, hgrouped]
      · exact decide_eq_true (operatorAt?_least hafter)
      · trivial
    · rename_i hafter
      split at h
      · -- no operator that binds tightly enough is left
        rename_i hbinary
        cases h
        exact ⟨hgrouped, hbinds, hclosed, hafter, hbinary⟩
      · -- the right operand takes all that binds tighter, so the operation ends before the rest
        rename_i o hbinary
        obtain ⟨⟨right, mid⟩, hright, h⟩ := Except.bind_eq_ok_iff.mp h
        have hpass := passes_operatorAt? hts hbinary
        have hnext := hpass.wellLexed hts
        have hlength := hpass.length_eq
        have hshorter := hparse.length_lt hnext hright
        have hmid := (hparse hnext hright).wellLexed hnext
        have hoperand := hsettles hnext hright
        have hfits := Expr.fitsRightOf_of_bindsFrom
          (hbelow o (operatorAt?_eq_some hts hbinary).1) hoperand.binds
        refine ih hmid (by simp at hlength; omega) ?_ ?_ ?_ h
        · simp [Expr.isGrouped, hclosed.fitsLeftOf (.inr rfl) hbinary, hgrouped, hfits,
            hoperand.grouped]
        · exact decide_eq_true (operatorAt?_least hbinary)
        · exact hoperand.stops

theorem parseMoreArguments_grouped (hparse : Faithful parse) (hsettles : Settles l parse)
    (hts : ts.WellLexed) (h : parseMoreArguments parse close start fuel ts = .ok (es, rest)) :
    Expr.areGrouped es := by
  induction fuel generalizing ts es with
  | zero =>
    cases h
    rfl
  | succ fuel ih =>
    rw [parseMoreArguments] at h
    obtain ⟨⟨argument, mid⟩, hargument, h⟩ := Except.bind_eq_ok_iff.mp h
    have hgrouped := (hsettles hts hargument).grouped
    have hmid := (hparse hts hargument).wellLexed hts
    simp only at h
    split at h
    · rename_i hcomma
      obtain ⟨⟨arguments, last⟩, hmore, h⟩ := Except.bind_eq_ok_iff.mp h
      cases h
      have hnext := (Tokens.passes_next_of_eq hcomma (by simp)).wellLexed hmid
      simp [Expr.areGrouped, hgrouped, ih hnext hmore]
    · split at h
      · cases h
        simp [Expr.areGrouped, hgrouped]
      · split at h <;> simp at h

theorem parseArguments_grouped (hparse : Faithful parse) (hsettles : Settles l parse)
    (hts : ts.WellLexed) (h : parseArguments parse close start ts = .ok (es, rest)) :
    Expr.areGrouped es := by
  unfold parseArguments at h
  split at h
  · cases h
    rfl
  · exact parseMoreArguments_grouped hparse hsettles hts h

theorem parseLambda_grouped (hsettles : Settles l parse) (hts : ts.WellLexed)
    (h : parseLambda l parse parameters position ts = .ok (e, rest)) :
    ∃ body, e = .lambda parameters body position ∧ body.isGrouped := by
  obtain ⟨-, -, h⟩ := Except.bind_eq_ok_iff.mp h
  obtain ⟨⟨body, last⟩, hbody, h⟩ := Except.bind_eq_ok_iff.mp h
  cases h
  exact ⟨body, rfl, (hsettles hts hbody).grouped⟩

/-- An expression without operators of its own binds as tightly as anything. -/
theorem parsePrimary_grouped (hparse : Faithful parse) (hsettles : Settles l parse)
    (hts : ts.WellLexed) (h : parsePrimary l parse ts = .ok (e, rest)) :
    e.isGrouped ∧ (∀ p, e.bindsFrom p) ∧ ∀ ts, e.ClosedBefore l ts := by
  -- a number, a text, what begins with a name, or what stands in parentheses
  unfold parsePrimary at h
  simp only at h
  split at h
  · cases h
    exact ⟨rfl, fun _ => rfl, fun _ => trivial⟩
  · cases h
    exact ⟨rfl, fun _ => rfl, fun _ => trivial⟩
  · rename_i spelling hkind
    have hname := Tokens.passes_next_of_eq hkind (by simp)
    have hbehind {kind : TokenKind} (hnext : ts.next.peek.kind = kind) (hne : kind ≠ .finish) :
        ts.next.next.WellLexed :=
      (hname.trans (Tokens.passes_next_of_eq hnext hne)).wellLexed hts
    split at h
    · rename_i harrow
      obtain ⟨body, rfl, hbody⟩ := parseLambda_grouped hsettles (hbehind harrow (by simp)) h
      exact ⟨hbody, fun _ => rfl, fun _ => trivial⟩
    · rename_i hparen
      obtain ⟨⟨arguments, last⟩, harguments, h⟩ := Except.bind_eq_ok_iff.mp h
      cases h
      exact ⟨parseArguments_grouped hparse hsettles (hbehind hparen (by simp)) harguments,
        fun _ => rfl, fun _ => trivial⟩
    · rename_i hbracket
      obtain ⟨⟨indexes, last⟩, hindexes, h⟩ := Except.bind_eq_ok_iff.mp h
      simp only at h
      split at h
      · simp at h
      · cases h
        exact ⟨parseArguments_grouped hparse hsettles (hbehind hbracket (by simp)) hindexes,
          fun _ => rfl, fun _ => trivial⟩
    · cases h
      exact ⟨rfl, fun _ => rfl, fun _ => trivial⟩
  · rename_i hparen
    split at h
    · rename_i hhead
      have hpass := lambdaHead?_passes hts hparen hhead
      obtain ⟨inner, rfl, hinner⟩ := parseLambda_grouped hsettles (hpass.wellLexed hts) h
      exact ⟨hinner, fun _ => rfl, fun _ => trivial⟩
    · obtain ⟨⟨arguments, last⟩, harguments, h⟩ := Except.bind_eq_ok_iff.mp h
      have hopen := (Tokens.passes_next_of_eq hparen (by simp)).wellLexed hts
      have hgrouped := parseArguments_grouped hparse hsettles hopen harguments
      simp only at h
      split at h
      · cases h
        simp only [Expr.areGrouped, Bool.and_true] at hgrouped
        exact ⟨hgrouped, fun _ => rfl, fun _ => trivial⟩
      · simp at h
  · simp at h
  · simp at h

theorem parseOperand_grouped (hparse : Faithful parse) (hsettles : Settles l parse)
    (hts : ts.WellLexed) (h : parseOperand l parse ts = .ok (e, rest)) :
    e.isGrouped ∧ (∀ p, e.bindsFrom p) ∧ e.ClosedBefore l rest := by
  unfold parseOperand at h
  split at h
  · rename_i o hbefore
    split at h
    · obtain ⟨hgrouped, hbinds, hclosed⟩ := parsePrimary_grouped hparse hsettles hts h
      exact ⟨hgrouped, hbinds, hclosed rest⟩
    · obtain ⟨⟨operand, last⟩, hoperand, h⟩ := Except.bind_eq_ok_iff.mp h
      cases h
      have hsettled := hsettles ((passes_operatorAt? hts hbefore).wellLexed hts) hoperand
      exact ⟨by simp [Expr.isGrouped, hsettled.binds, hsettled.grouped], fun _ => rfl,
        hsettled.stops⟩
  · obtain ⟨hgrouped, hbinds, hclosed⟩ := parsePrimary_grouped hparse hsettles hts h
    exact ⟨hgrouped, hbinds, hclosed rest⟩

end

/-- The parser of expressions reads nothing but settled trees, whatever the number of levels. -/
theorem parseOperation_settled {l : Language} (hbelow : ∀ o ∈ l.operators, o.precedence < 255)
    (levels : Nat) : Settles l (parseOperation l levels) := by
  induction levels with
  | zero =>
    intro least ts rest e _ h
    simp [parseOperation] at h
  | succ levels ih =>
    intro least ts rest e hts h
    rw [parseOperation] at h
    obtain ⟨⟨left, mid⟩, hleft, h⟩ := Except.bind_eq_ok_iff.mp h
    have hfaithful := parseOperation_faithful l levels
    obtain ⟨hgrouped, hbinds, hclosed⟩ := parseOperand_grouped hfaithful ih hts hleft
    have hmid := (parseOperand_passes hfaithful hts hleft).wellLexed hts
    exact parseOperators_settled hbelow hfaithful ih hmid (Nat.lt_succ_self _) hgrouped
      (hbinds least) hclosed h

/-- Every text of an expression has the tokens of its tree and no others, and its tree is grouped,
in a language without operators of the highest precedence. -/
theorem parseExpression_sound {l : Language} {text : String} {origin : Position} {e : Expr}
    (hbelow : ∀ o ∈ l.operators, o.precedence < 255)
    (h : parseExpression l text origin = .ok e) :
    (∃ ts, tokenize l text origin = .ok ts ∧ ts.kinds = e.tokens) ∧ e.isGrouped := by
  unfold parseExpression at h
  obtain ⟨ts, hts, h⟩ := Except.bind_eq_ok_iff.mp h
  have hlexed := tokenize_wellLexed hts
  split at h
  · simp at h
  · obtain ⟨⟨e', rest⟩, hparse, h⟩ := Except.bind_eq_ok_iff.mp h
    simp only at h
    split at h
    · simp at h
    · rename_i hfinish
      split at h
      · simp at h
      · cases h
        have hpass := parseOperation_faithful l maximalNesting hlexed hparse
        have hnil := (hpass.wellLexed hlexed).list_eq_nil (by simpa using hfinish)
        refine ⟨⟨ts, hts, ?_⟩, (parseOperation_settled hbelow maximalNesting hlexed hparse).grouped⟩
        rw [hpass.kinds_eq]
        simp [Tokens.kinds, hnil]

/-- In the standard language, the tokens of a text that is an expression are those of its tree from
left to right, and the tree is grouped by the precedences of its operators, to the left where they
are the same. -/
theorem parseExpression_writes_and_groups {text : String} {origin : Position} {e : Expr}
    (h : parseExpression .standard text origin = .ok e) :
    (∃ ts, tokenize .standard text origin = .ok ts ∧ ts.kinds = e.tokens) ∧ e.isGrouped :=
  parseExpression_sound (by decide) h

theorem parseExpression_writes_and_groups_mixed :
    ∃ e, parseExpression .standard "-A.B assert * 2 : F((x) => x, y)" .start = .ok e ∧
      e.tokens =
        [.operator "-", .name "A", .operator ".", .name "B", .name "assert", .operator "*",
          .number "2", .operator ":", .name "F", .leftParen, .leftParen, .name "x", .rightParen,
          .arrow, .name "x", .comma, .name "y", .rightParen] ∧
      e.isGrouped := by
  obtain ⟨e, he⟩ : ∃ e, parseExpression .standard "-A.B assert * 2 : F((x) => x, y)" .start
      = .ok e := Except.exists_of_isOk (by decide +kernel)
  obtain ⟨⟨ts, hts, hkinds⟩, hgrouped⟩ := parseExpression_writes_and_groups he
  have htokens : (tokenize .standard "-A.B assert * 2 : F((x) => x, y)" .start).toOption.map
      Tokens.kinds = some
        [.operator "-", .name "A", .operator ".", .name "B", .name "assert", .operator "*",
          .number "2", .operator ":", .name "F", .leftParen, .leftParen, .name "x", .rightParen,
          .arrow, .name "x", .comma, .name "y", .rightParen] := by
    decide +kernel
  rw [hts] at htokens
  exact ⟨e, he, hkinds ▸ Option.some.inj htokens, hgrouped⟩

end DocQuery
