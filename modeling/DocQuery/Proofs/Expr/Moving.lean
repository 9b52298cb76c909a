/-
An expression is read the same way wherever its text begins.

* `Follows` — a computation gives a result whenever another one does, and one like it;
* `tokenize_moved` — a text has the same tokens wherever it begins;
* `parseExpression_moved` — and the same tree, but for the positions in it.

Design notes: readers look at what is left of a text and parsers at the kinds of tokens; positions
are only handed on. Two trees are compared with any positions, since those of a text that begins on
another line are moved in its first line only.
-/
import DocQuery.Proofs.Expr.Writing
import DocQuery.Proofs.Formula.Positions

namespace DocQuery

/-- Whether `y` gives a result whenever `x` does, and one that is in relation to it. -/
def Follows {ε α β : Type} (R : α → β → Prop) (x : Except ε α) (y : Except ε β) : Prop :=
  ∀ a, x = .ok a → ∃ b, y = .ok b ∧ R a b

namespace Follows

variable {ε α β γ δ : Type} {R : α → β → Prop} {S : γ → δ → Prop} {x : Except ε α}
  {y : Except ε β}

theorem ok {a : α} {b : β} (h : R a b) : Follows R (.ok a : Except ε α) (.ok b) := by
  intro a' ha
  obtain rfl := Except.ok.inj ha
  exact ⟨b, rfl, h⟩

theorem error (fault : ε) (y : Except ε β) : Follows R (.error fault) y := by
  intro a ha
  cases ha

theorem bind {f : α → Except ε γ} {g : β → Except ε δ} (h : Follows R x y)
    (hf : ∀ a b, R a b → Follows S (f a) (g b)) : Follows S (x >>= f) (y >>= g) := by
  intro c hc
  obtain ⟨a, ha, hfa⟩ := Except.bind_eq_ok_iff.1 hc
  obtain ⟨b, hb, hab⟩ := h a ha
  obtain ⟨d, hd, hcd⟩ := hf a b hab c hfa
  exact ⟨d, Except.bind_eq_ok_iff.2 ⟨b, hb, hd⟩, hcd⟩

end Follows

/-! ### Tokens -/

section Lexing

/-- Whether two readings found the same and left the same behind them. -/
def SameReading {α : Type} (r r' : α × Cursor) : Prop := r'.1 = r.1 ∧ r'.2.rest = r.2.rest

variable {c c' : Cursor}

theorem Cursor.rest_pass (h : c'.rest = c.rest) (n : Nat) : (c'.pass n).rest = (c.pass n).rest := by
  rw [pass, pass, h]

theorem Cursor.rest_skipBlank (h : c'.rest = c.rest) : c'.skipBlank.rest = c.skipBlank.rest := by
  rw [skipBlank, skipBlank, h]
  exact rest_pass h _

theorem Cursor.passOneOf?_moved (h : c'.rest = c.rest) (words : List String) :
    Option.Rel SameReading (c.passOneOf? words) (c'.passOneOf? words) := by
  induction words with
  | nil => exact .none
  | cons word words ih =>
    rw [passOneOf?, passOneOf?]
    split
    · exact ih
    · rw [passWord?, passWord?, startsWith, startsWith, h]
      split
      · rename_i hpassed
        split at hpassed
        · rename_i hprefix
          obtain rfl := Option.some.inj hpassed
          simp only [if_pos hprefix]
          exact .some ⟨rfl, rest_pass h _⟩
        · cases hpassed
      · rename_i hpassed
        split at hpassed
        · cases hpassed
        · rename_i hprefix
          simp only [if_neg hprefix]
          exact ih

theorem Cursor.readNumber_moved (h : c'.rest = c.rest) :
    Follows SameReading (Reading.value c.readNumber) (Reading.value c'.readNumber) := by
  rw [readNumber, readNumber, h]
  split
  · exact .error _ _
  · exact .ok ⟨rfl, rest_pass h _⟩

theorem Cursor.readName_moved (h : c'.rest = c.rest) :
    Follows SameReading (Reading.value c.readName) (Reading.value c'.readName) := by
  rw [readName, readName, h]
  split
  · exact .error _ _
  · exact .ok ⟨rfl, rest_pass h _⟩

theorem Cursor.readQuoted_moved (h : c'.rest = c.rest) :
    Follows (fun r r' => r'.1.text = r.1.text ∧ r'.2.rest = r.2.rest)
      (Reading.value c.readQuoted) (Reading.value c'.readQuoted) := by
  rw [readQuoted, readQuoted, h]
  split
  · exact .ok ⟨rfl, rest_pass h _⟩
  · exact .error _ _

theorem nextToken_moved (h : c'.rest = c.rest) (l : Language) (symbols : List String)
    (first : Char) :
    Follows SameReading (nextToken l symbols first c) (nextToken l symbols first c') := by
  have harrow := Cursor.passOneOf?_moved h [l.arrow]
  have hsymbol := Cursor.passOneOf?_moved h symbols
  unfold nextToken
  split
  · exact (Cursor.readNumber_moved h).bind fun r r' hr => .ok ⟨by rw [hr.1], hr.2⟩
  split
  · exact (Cursor.readQuoted_moved h).bind fun r r' hr => .ok ⟨by rw [hr.1], hr.2⟩
  split
  · exact (Cursor.readName_moved h).bind fun r r' hr => .ok ⟨by rw [hr.1], hr.2⟩
  generalize c.passOneOf? [l.arrow] = found at harrow
  generalize c'.passOneOf? [l.arrow] = found' at harrow
  cases harrow with
  | some hr => exact .ok ⟨rfl, hr.2⟩
  | none =>
    simp only
    split
    · exact .ok ⟨rfl, Cursor.rest_pass h 1⟩
    · generalize c.passOneOf? symbols = symbol at hsymbol
      generalize c'.passOneOf? symbols = symbol' at hsymbol
      cases hsymbol with
      | some hr => exact .ok ⟨by rw [hr.1], hr.2⟩
      | none => exact .error _ _

theorem tokensFrom_moved (l : Language) (symbols : List String) (fuel : Nat) {c c' : Cursor}
    (h : c'.rest = c.rest) :
    Follows (fun ts ts' => ts'.kinds = ts.kinds) (tokensFrom l symbols fuel c)
      (tokensFrom l symbols fuel c') := by
  induction fuel generalizing c c' with
  | zero => exact .ok rfl
  | succ fuel ih =>
    rw [tokensFrom, tokensFrom]
    have hstart := Cursor.rest_skipBlank h
    have hpeek : c'.skipBlank.peek = c.skipBlank.peek := by
      rw [Cursor.peek, Cursor.peek, hstart]
    rw [hpeek]
    rcases c.skipBlank.peek with _ | first
    · exact .ok rfl
    · refine (nextToken_moved hstart l symbols first).bind fun r r' hr => ?_
      obtain ⟨kind, next⟩ := r
      obtain ⟨kind', next'⟩ := r'
      obtain ⟨rfl, hnext⟩ := hr
      refine (ih hnext).bind fun rest rest' hrest => .ok ?_
      simp only [Tokens.kinds, List.map_cons] at hrest ⊢
      rw [hrest]

/-- A text has the same tokens wherever it begins. -/
theorem tokenize_moved (l : Language) (text : String) (origin origin' : Position) :
    Follows (fun ts ts' => ts'.kinds = ts.kinds) (tokenize l text origin)
      (tokenize l text origin') :=
  tokensFrom_moved l _ _ rfl

end Lexing

/-! ### Trees -/

section Parsing

/-- Any two positions. -/
abbrev Anywhere (_ _ : Position) : Prop := True

variable {l : Language} {ts ts' : Tokens}

theorem Tokens.peek_kind_eq (h : ts'.kinds = ts.kinds) : ts'.peek.kind = ts.peek.kind := by
  have hhead := congrArg List.head? h
  rw [kinds, kinds, List.head?_map, List.head?_map] at hhead
  rw [peek, peek, List.headD_eq_head?_getD, List.headD_eq_head?_getD]
  rcases hlist : ts.list.head? with _ | t <;> rcases hlist' : ts'.list.head? with _ | t' <;>
    simp_all

theorem Tokens.kinds_next (h : ts'.kinds = ts.kinds) : ts'.next.kinds = ts.next.kinds := by
  rw [next, next, drop, drop, kinds, kinds, List.map_drop, List.map_drop]
  exact congrArg (List.drop 1) h

theorem Tokens.length_list_eq (h : ts'.kinds = ts.kinds) : ts'.list.length = ts.list.length := by
  simpa [kinds] using congrArg List.length h

theorem operatorAt?_moved (h : ts'.kinds = ts.kinds) (fixity : Fixity) (least : Precedence) :
    operatorAt? l fixity least ts' = operatorAt? l fixity least ts := by
  rw [operatorAt?, operatorAt?, Tokens.peek_kind_eq h]

/-- Whether two parsers have read trees of one shape and left tokens of the same kinds. -/
def SameParse (r r' : Expr × Tokens) : Prop :=
  r.1.SameShape Anywhere r'.1 ∧ r'.2.kinds = r.2.kinds

/-- Whether two parsers have read several trees of one shape. -/
def SameParses (r r' : List Expr × Tokens) : Prop :=
  Expr.AllSameShape Anywhere r.1 r'.1 ∧ r'.2.kinds = r.2.kinds

/-- Whether a parser reads trees of one shape from tokens of the same kinds. -/
def ExprParser.Moves (parse : ExprParser) : Prop :=
  ∀ least ts ts', ts'.kinds = ts.kinds → Follows SameParse (parse least ts) (parse least ts')

variable {parse : ExprParser}

theorem parseOperators_moved (hparse : parse.Moves) (least : Precedence) (fuel : Nat)
    {left left' : Expr} (hleft : left.SameShape Anywhere left') (h : ts'.kinds = ts.kinds) :
    Follows SameParse (parseOperators l parse least fuel left ts)
      (parseOperators l parse least fuel left' ts') := by
  induction fuel generalizing left left' ts ts' with
  | zero => exact .ok ⟨hleft, h⟩
  | succ fuel ih =>
    rw [parseOperators, parseOperators]
    simp only [operatorAt?_moved h]
    split
    · exact ih (.after _ hleft trivial) (Tokens.kinds_next h)
    · split
      · exact .ok ⟨hleft, h⟩
      · refine (hparse _ _ _ (Tokens.kinds_next h)).bind fun r r' hr => ?_
        exact ih (.binary _ hleft hr.1 trivial) hr.2

theorem parseMoreArguments_moved (hparse : parse.Moves) (close : TokenKind)
    (start start' : Position) (fuel : Nat) (h : ts'.kinds = ts.kinds) :
    Follows SameParses (parseMoreArguments parse close start fuel ts)
      (parseMoreArguments parse close start' fuel ts') := by
  induction fuel generalizing ts ts' with
  | zero => exact .ok ⟨.nil, h⟩
  | succ fuel ih =>
    rw [parseMoreArguments, parseMoreArguments]
    refine (hparse _ _ _ h).bind fun r r' hr => ?_
    simp only [Tokens.peek_kind_eq hr.2]
    split
    · exact (ih (Tokens.kinds_next hr.2)).bind fun q q' hq => .ok ⟨.cons hr.1 hq.1, hq.2⟩
    split
    · exact .ok ⟨.cons hr.1 .nil, Tokens.kinds_next hr.2⟩
    split
    · exact .error _ _
    · exact .error _ _

theorem parseArguments_moved (hparse : parse.Moves) (close : TokenKind)
    (start start' : Position) (h : ts'.kinds = ts.kinds) :
    Follows SameParses (parseArguments parse close start ts)
      (parseArguments parse close start' ts') := by
  rw [parseArguments, parseArguments, Tokens.peek_kind_eq h, Tokens.length_list_eq h]
  split
  · exact .ok ⟨.nil, Tokens.kinds_next h⟩
  · exact parseMoreArguments_moved hparse close start start' _ h

/-- Whether two heads of lambdas have parameters of the same names and leave the same kinds. -/
def SameHead (r r' : List Parameter × List Token) : Prop :=
  r'.1.map (·.name) = r.1.map (·.name) ∧ r'.2.map (·.kind) = r.2.map (·.kind)

theorem exists_token {list : List Token} {kind : TokenKind} {kinds : List TokenKind}
    (h : list.map (·.kind) = kind :: kinds) :
    ∃ p rest, list = ⟨kind, p⟩ :: rest ∧ rest.map (·.kind) = kinds := by
  obtain ⟨⟨_, p⟩, rest, rfl, rfl, hrest⟩ := List.map_eq_cons_iff.1 h
  exact ⟨p, rest, rfl, hrest⟩

theorem parametersBefore?_moved {list list' : List Token}
    (h : list'.map (·.kind) = list.map (·.kind)) :
    Option.Rel SameHead (parametersBefore? list) (parametersBefore? list') := by
  fun_induction parametersBefore? list generalizing list' with
  | case1 name position comma ts ih =>
    obtain ⟨position', _, rfl, hcomma⟩ := exists_token h
    obtain ⟨comma', ts', rfl, hts⟩ := exists_token hcomma
    rw [parametersBefore?]
    have hmore := ih hts
    generalize parametersBefore? ts = found at hmore ⊢
    generalize parametersBefore? ts' = found' at hmore ⊢
    cases hmore with
    | none => exact .none
    | some hr => exact .some ⟨by simp [hr.1], hr.2⟩
  | case2 name position paren arrow ts =>
    obtain ⟨position', _, rfl, hparen⟩ := exists_token h
    obtain ⟨paren', _, rfl, harrow⟩ := exists_token hparen
    obtain ⟨arrow', ts', rfl, hts⟩ := exists_token harrow
    rw [parametersBefore?]
    exact .some ⟨rfl, hts⟩
  | case3 ts hcomma hparen =>
    -- what has no such head has none wherever its tokens stand
    unfold parametersBefore?
    split
    · obtain ⟨p, _, rfl, hrest⟩ := exists_token h.symm
      obtain ⟨q, _, rfl, -⟩ := exists_token hrest
      exact (hcomma _ _ _ _ rfl).elim
    · obtain ⟨p, _, rfl, hrest⟩ := exists_token h.symm
      obtain ⟨q, _, rfl, hmore⟩ := exists_token hrest
      obtain ⟨r, _, rfl, -⟩ := exists_token hmore
      exact (hparen _ _ _ _ _ rfl).elim
    · exact .none

theorem lambdaHead?_moved {list list' : List Token}
    (h : list'.map (·.kind) = list.map (·.kind)) :
    Option.Rel SameHead (lambdaHead? list) (lambdaHead? list') := by
  unfold lambdaHead?
  split
  · obtain ⟨paren', _, rfl, harrow⟩ := exists_token h
    obtain ⟨arrow', ts', rfl, hts⟩ := exists_token harrow
    exact .some ⟨rfl, hts⟩
  · rename_i hhead
    split
    · obtain ⟨p, _, rfl, hrest⟩ := exists_token h.symm
      obtain ⟨q, _, rfl, -⟩ := exists_token hrest
      exact (hhead _ _ _ rfl).elim
    · exact parametersBefore?_moved h

theorem checkParameters_moved {parameters parameters' : List Parameter}
    (h : parameters'.map (·.name) = parameters.map (·.name)) (earlier : List String) :
    Follows Eq (checkParameters l earlier parameters) (checkParameters l earlier parameters') := by
  induction parameters generalizing parameters' earlier with
  | nil =>
    obtain rfl := List.map_eq_nil_iff.1 h
    exact .ok rfl
  | cons p parameters ih =>
    obtain ⟨p', parameters', rfl, hname, h⟩ := List.map_eq_cons_iff.1 h
    rw [checkParameters, checkParameters, hname]
    split
    · exact .error _ _
    split
    · exact .error _ _
    · exact ih h _

theorem parseLambda_moved (hparse : parse.Moves) {parameters parameters' : List Parameter}
    (hnames : parameters'.map (·.name) = parameters.map (·.name)) (p p' : Position)
    (h : ts'.kinds = ts.kinds) :
    Follows SameParse (parseLambda l parse parameters p ts)
      (parseLambda l parse parameters' p' ts') :=
  (checkParameters_moved hnames []).bind fun _ _ _ =>
    (hparse _ _ _ h).bind fun _ _ hr => .ok ⟨.lambda hnames.symm hr.1 trivial, hr.2⟩

theorem parsePrimary_moved (hparse : parse.Moves) (h : ts'.kinds = ts.kinds) :
    Follows SameParse (parsePrimary l parse ts) (parsePrimary l parse ts') := by
  have hnext := Tokens.kinds_next h
  have hafter := Tokens.kinds_next hnext
  unfold parsePrimary
  rw [Tokens.peek_kind_eq h]
  simp only
  split
  · exact .ok ⟨.number _ trivial, hnext⟩
  · exact .ok ⟨.text _ trivial, hnext⟩
  · -- the token behind a name tells a lambda, a call and an index from a mere name
    rw [Tokens.peek_kind_eq hnext]
    split
    · rename_i spelling _ _ _
      have hnames : [Parameter.mk spelling ts'.peek.position].map (·.name) =
          [Parameter.mk spelling ts.peek.position].map (·.name) := rfl
      exact parseLambda_moved hparse hnames _ _ hafter
    · exact (parseArguments_moved hparse _ _ _ hafter).bind fun r r' hr =>
        .ok ⟨.call _ hr.1 trivial, hr.2⟩
    · refine (parseArguments_moved hparse _ _ _ hafter).bind fun r r' hr => ?_
      obtain ⟨indexes, rest⟩ := r
      obtain ⟨indexes', rest'⟩ := r'
      obtain ⟨hindexes, hrest⟩ := hr
      cases hindexes with
      | nil => exact .error _ _
      | cons he hes => exact .ok ⟨.index _ (.cons he hes) trivial, hrest⟩
    · exact .ok ⟨.name _ trivial, hnext⟩
  · -- a parenthesis opens the parameters of a lambda or a group
    have hhead := lambdaHead?_moved hnext
    generalize lambdaHead? ts.next.list = found at hhead ⊢
    generalize lambdaHead? ts'.next.list = found' at hhead ⊢
    cases hhead with
    | some hr => exact parseLambda_moved hparse hr.1 _ _ hr.2
    | none =>
      refine (parseArguments_moved hparse _ _ _ hnext).bind fun r r' hr => ?_
      obtain ⟨arguments, rest⟩ := r
      obtain ⟨arguments', rest'⟩ := r'
      obtain ⟨harguments, hrest⟩ := hr
      cases harguments with
      | nil => exact .error _ _
      | cons he hes =>
        cases hes with
        | nil => exact .ok ⟨.group he trivial, hrest⟩
        | cons => exact .error _ _
  · exact .error _ _
  · exact .error _ _

theorem beginsNamed_moved (h : ts'.kinds = ts.kinds) : beginsNamed ts' = beginsNamed ts := by
  rw [beginsNamed, beginsNamed, Tokens.peek_kind_eq h, Tokens.peek_kind_eq (Tokens.kinds_next h)]

theorem parseOperand_moved (hparse : parse.Moves) (h : ts'.kinds = ts.kinds) :
    Follows SameParse (parseOperand l parse ts) (parseOperand l parse ts') := by
  rw [parseOperand, parseOperand]
  simp only [operatorAt?_moved h, beginsNamed_moved h]
  split
  · split
    · exact parsePrimary_moved hparse h
    · exact (hparse _ _ _ (Tokens.kinds_next h)).bind fun r r' hr =>
        .ok ⟨.before _ hr.1 trivial, hr.2⟩
  · exact parsePrimary_moved hparse h

theorem parseOperation_moves (l : Language) (levels : Nat) :
    ExprParser.Moves (parseOperation l levels) := by
  induction levels with
  | zero => exact fun _ _ _ _ => .error _ _
  | succ levels ih =>
    intro least ts ts' h
    rw [parseOperation, parseOperation]
    refine (parseOperand_moved ih h).bind fun r r' hr => ?_
    simp only [Tokens.length_list_eq hr.2]
    exact parseOperators_moved ih least _ hr.1 hr.2

mutual

/-- Trees of one shape are too deep for the same levels. -/
theorem Expr.SameShape.tooDeep?_isSome {e e' : Expr} (h : e.SameShape Anywhere e')
    (levels : Nat) : (e'.tooDeep? levels).isSome = (e.tooDeep? levels).isSome := by
  cases levels with
  | zero => rw [tooDeep?, tooDeep?, Option.isSome_some, Option.isSome_some]
  | succ levels =>
    cases h with
    | name | number | text => rfl
    | binary _ hleft hright _ =>
      rw [tooDeep?, tooDeep?, Option.isSome_or, Option.isSome_or, hleft.tooDeep?_isSome levels,
        hright.tooDeep?_isSome levels]
    | before _ hoperand _ | after _ hoperand _ =>
      rw [tooDeep?, tooDeep?, hoperand.tooDeep?_isSome levels]
    | group hinner _ => rw [tooDeep?, tooDeep?, hinner.tooDeep?_isSome levels]
    | call _ harguments _ => rw [tooDeep?, tooDeep?, harguments.anyTooDeep?_isSome levels]
    | index _ hindexes _ => rw [tooDeep?, tooDeep?, hindexes.anyTooDeep?_isSome levels]
    | lambda _ hbody _ => rw [tooDeep?, tooDeep?, hbody.tooDeep?_isSome levels]

theorem Expr.AllSameShape.anyTooDeep?_isSome {es es' : List Expr}
    (h : Expr.AllSameShape Anywhere es es') (levels : Nat) :
    (Expr.anyTooDeep? levels es').isSome = (Expr.anyTooDeep? levels es).isSome := by
  cases h with
  | nil => rfl
  | cons he hes =>
    rw [anyTooDeep?, anyTooDeep?, Option.isSome_or, Option.isSome_or,
      he.tooDeep?_isSome levels, hes.anyTooDeep?_isSome levels]

end

/-- An expression has a tree of the same shape wherever its text begins. -/
theorem parseExpression_moved {text : String} {origin : Position} {e : Expr}
    (h : parseExpression l text origin = .ok e) (origin' : Position) :
    ∃ e', parseExpression l text origin' = .ok e' ∧ e.SameShape Anywhere e' := by
  refine (tokenize_moved l text origin origin').bind (S := Expr.SameShape Anywhere)
    (fun ts ts' hts => ?_) e h
  have hempty : ts'.list.isEmpty = ts.list.isEmpty := by
    have hlength := Tokens.length_list_eq hts
    cases hlist : ts.list <;> cases hlist' : ts'.list <;> simp_all
  simp only [hempty]
  split
  · exact .error _ _
  · refine (parseOperation_moves l maximalNesting 0 ts ts' hts).bind fun r r' hr => ?_
    simp only [Tokens.peek_kind_eq hr.2]
    split
    · exact .error _ _
    · have hdeep := hr.1.tooDeep?_isSome maximalNesting
      rcases hfirst : r.1.tooDeep? maximalNesting with _ | p
      · rw [hfirst, Option.isSome_none, Option.isSome_eq_false_iff, Option.isNone_iff_eq_none]
          at hdeep
        rw [hdeep]
        exact .ok hr.1
      · exact .error _ _

end Parsing

end DocQuery
