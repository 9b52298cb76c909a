/-
What is printed is parsed again.

* `Closes` — tokens behind a whole expression: a closing bracket, a comma or nothing;
* `Reads`, `ReadsOperand` — a tree is read from tokens, as a whole or as an operand;
* `IsPrintable.reads` — every printed tree is read with a group around every operand;
* `parse_print` — so a printed text has the syntax tree that it was printed from.

Design notes: tokens are told apart by their kinds, and trees are compared without their places. The
parser is the one without a limit on levels, so that no level has to be counted on the way; what it
reads within the limit is an expression. An operator between operands in parentheses never competes
with another one, so precedences do not matter.
-/
import DocQuery.Proofs.Expr.Grouping
import DocQuery.Proofs.Expr.Moving
import DocQuery.Proofs.Expr.Nesting
import DocQuery.Proofs.Expr.Printing

namespace DocQuery

/-! ### Tokens by their kinds -/

section Kinds

variable {l : Language} {ts : Tokens} {kind : TokenKind} {ks : List TokenKind}

theorem Tokens.peek_kind_of_kinds (h : ts.kinds = kind :: ks) : ts.peek.kind = kind := by
  obtain ⟨p, rest, hlist, -⟩ := exists_token h
  rw [peek, hlist]
  rfl

theorem Tokens.kinds_next_of_kinds (h : ts.kinds = kind :: ks) : ts.next.kinds = ks := by
  obtain ⟨p, rest, hlist, hrest⟩ := exists_token h
  rw [next, drop, kinds, hlist]
  exact hrest

theorem Tokens.peek_kind_eq_finish (h : ts.kinds = []) : ts.peek.kind = .finish := by
  rw [peek, List.map_eq_nil_iff.1 h]
  rfl

/-- Only names and symbols are operators. -/
theorem operatorAt?_of_kinds (h : ts.kinds = kind :: ks) (hname : ∀ s, kind ≠ .name s)
    (hsymbol : ∀ s, kind ≠ .operator s) (fixity : Fixity) (least : Precedence) :
    operatorAt? l fixity least ts = none := by
  rw [operatorAt?, Tokens.peek_kind_of_kinds h]
  cases kind with
  | name s => exact absurd rfl (hname s)
  | operator s => exact absurd rfl (hsymbol s)
  | _ => rfl

/-- Whether tokens go on behind a whole expression: with a closing bracket, a comma or nothing. -/
def Closes (ks : List TokenKind) : Prop :=
  ∀ k ∈ ks.head?, k = .rightParen ∨ k = .rightBracket ∨ k = .comma

theorem closes_nil : Closes [] := nofun

theorem closes_cons (h : kind = .rightParen ∨ kind = .rightBracket ∨ kind = .comma) :
    Closes (kind :: ks) := by
  intro k hk
  obtain rfl := Option.some.inj hk
  exact h

/-- No operator goes on there. -/
theorem Closes.stopsAt (h : Closes ts.kinds) (l : Language) (least : Precedence) :
    l.StopsAt least ts := by
  have hnone : ∀ fixity, operatorAt? l fixity least ts = none := by
    intro fixity
    rcases hkinds : ts.kinds with _ | ⟨k, ks⟩
    · rw [operatorAt?, Tokens.peek_kind_eq_finish hkinds]
      rfl
    · refine operatorAt?_of_kinds hkinds ?_ ?_ fixity least <;>
        rcases h k (by rw [hkinds]; rfl) with rfl | rfl | rfl <;> simp
  exact ⟨hnone .after, hnone .binary⟩

theorem parseOperators_of_stopsAt {least : Precedence} (parse : ExprParser) (fuel : Nat)
    (left : Expr) (h : l.StopsAt least ts) :
    parseOperators l parse least fuel left ts = .ok (left, ts) := by
  cases fuel with
  | zero => rfl
  | succ fuel =>
    rw [parseOperators]
    simp only [h.1, h.2]

/-- An expression is an operand and the operators behind it. -/
theorem parseFreely_of_operand {left : Expr} {rest : Tokens}
    (h : parseOperand l (parseFreely l) ts = .ok (left, rest)) (least : Precedence) :
    parseFreely l least ts =
      parseOperators l (parseFreely l) least (rest.list.length + 1) left rest := by
  have hlevel := congrFun (congrFun (parseFreely_eq_parseLevel l) least) ts
  rw [hlevel, parseLevel, h, Except.ok_bind]

theorem parseFreely_of_stopsAt {e : Expr} {rest : Tokens} {least : Precedence}
    (h : parseOperand l (parseFreely l) ts = .ok (e, rest)) (hrest : l.StopsAt least rest) :
    parseFreely l least ts = .ok (e, rest) := by
  rw [parseFreely_of_operand h, parseOperators_of_stopsAt _ _ _ hrest]

theorem parseOperand_of_primary {parse : ExprParser} (h : operatorAt? l .before 0 ts = none) :
    parseOperand l parse ts = parsePrimary l parse ts := by
  rw [parseOperand, h]

end Kinds

/-! ### Operands -/

/-- Whether a tree is read from tokens of these kinds, wherever a whole expression may end. -/
def Reads (l : Language) (ks : List TokenKind) (e : Expr) : Prop :=
  ∀ ts behind, ts.kinds = ks ++ behind → Closes behind →
    ∃ e' rest, parseFreely l 0 ts = .ok (e', rest) ∧ rest.kinds = behind ∧
      e.SameShape Anywhere e'

/-- Whether a tree is read as an operand from tokens of these kinds, before an operator or where an
expression may end. -/
def ReadsOperand (l : Language) (ks : List TokenKind) (e : Expr) : Prop :=
  ∀ ts behind, ts.kinds = ks ++ behind →
    (∀ k ∈ behind.head?, k ≠ .arrow ∧ k ≠ .leftParen ∧ k ≠ .leftBracket) →
    ∃ e' rest, parseOperand l (parseFreely l) ts = .ok (e', rest) ∧ rest.kinds = behind ∧
      e.SameShape Anywhere e'

theorem Closes.not_opening {behind : List TokenKind} (h : Closes behind) :
    ∀ k ∈ behind.head?, k ≠ .arrow ∧ k ≠ .leftParen ∧ k ≠ .leftBracket := by
  intro k hk
  rcases h k hk with rfl | rfl | rfl <;> simp

/-- What is read as an operand is read as an expression of any precedence. -/
theorem ReadsOperand.parseFreely {l : Language} {ks behind : List TokenKind} {e : Expr}
    {ts : Tokens} (h : ReadsOperand l ks e) (least : Precedence) (hts : ts.kinds = ks ++ behind)
    (hbehind : Closes behind) :
    ∃ e' rest, parseFreely l least ts = .ok (e', rest) ∧ rest.kinds = behind ∧
      e.SameShape Anywhere e' := by
  obtain ⟨e', rest, hparse, hrest, hshape⟩ := h ts behind hts hbehind.not_opening
  have hstops : l.StopsAt least rest := Closes.stopsAt (hrest ▸ hbehind) l least
  exact ⟨e', rest, parseFreely_of_stopsAt hparse hstops, hrest, hshape⟩

theorem ReadsOperand.reads {l : Language} {ks : List TokenKind} {e : Expr}
    (h : ReadsOperand l ks e) : Reads l ks e :=
  fun _ _ hts hbehind => h.parseFreely 0 hts hbehind

section Primary

variable {l : Language} {parse : ExprParser} {ts : Tokens} {behind : List TokenKind}

theorem parsePrimary_name {spelling : String} (hts : ts.kinds = .name spelling :: behind)
    (hbehind : ∀ k ∈ behind.head?, k ≠ .arrow ∧ k ≠ .leftParen ∧ k ≠ .leftBracket) :
    parsePrimary l parse ts = .ok (.name spelling ts.peek.position, ts.next) := by
  have hnext := Tokens.kinds_next_of_kinds hts
  have hkind : ts.next.peek.kind ≠ .arrow ∧ ts.next.peek.kind ≠ .leftParen ∧
      ts.next.peek.kind ≠ .leftBracket := by
    rcases behind with _ | ⟨k, ks⟩
    · simp [Tokens.peek_kind_eq_finish hnext]
    · rw [Tokens.peek_kind_of_kinds hnext]
      exact hbehind k rfl
  rw [parsePrimary, Tokens.peek_kind_of_kinds hts]
  simp only
  split
  · rename_i harrow
    exact absurd harrow hkind.1
  · rename_i hparen
    exact absurd hparen hkind.2.1
  · rename_i hbracket
    exact absurd hbracket hkind.2.2
  · rfl

/-- A name that is no operator before an operand is read as an operand or as what begins with it. -/
theorem operatorAt?_before_of_name {spelling : String} (hts : ts.kinds = .name spelling :: behind)
    (h : l.operator? spelling .before = none) : operatorAt? l .before 0 ts = none := by
  rw [operatorAt?, Tokens.peek_kind_of_kinds hts]
  simp only [h, Option.filter_none]

/-- A name is a tree of its own where no bracket and no arrow follows it. -/
theorem readsOperand_name {spelling : String} (h : l.operator? spelling .before = none)
    (p : Position) : ReadsOperand l [.name spelling] (.name spelling p) := by
  intro ts behind hts hbehind
  refine ⟨.name spelling ts.peek.position, ts.next, ?_, Tokens.kinds_next_of_kinds hts,
    .name spelling trivial⟩
  rw [parseOperand_of_primary (operatorAt?_before_of_name hts h), parsePrimary_name hts hbehind]

theorem readsOperand_number (l : Language) (digits : String) (p : Position) :
    ReadsOperand l [.number digits] (.number digits p) := by
  intro ts behind hts _
  have hbefore : operatorAt? l .before 0 ts = none :=
    operatorAt?_of_kinds hts (by simp) (by simp) _ _
  refine ⟨.number digits ts.peek.position, ts.next, ?_, Tokens.kinds_next_of_kinds hts,
    .number digits trivial⟩
  rw [parseOperand_of_primary hbefore, parsePrimary, Tokens.peek_kind_of_kinds hts]

theorem readsOperand_text (l : Language) (content : String) (p : Position) :
    ReadsOperand l [.text content] (.text content p) := by
  intro ts behind hts _
  have hbefore : operatorAt? l .before 0 ts = none :=
    operatorAt?_of_kinds hts (by simp) (by simp) _ _
  refine ⟨.text content ts.peek.position, ts.next, ?_, Tokens.kinds_next_of_kinds hts,
    .text content trivial⟩
  rw [parseOperand_of_primary hbefore, parsePrimary, Tokens.peek_kind_of_kinds hts]

/-- The head of a lambda is found behind its opening parenthesis. -/
theorem parametersBefore?_listed {names : List String} (hne : names ≠ []) {list : List Token}
    {body : List TokenKind}
    (h : list.map (·.kind) = listedNames names ++ .rightParen :: .arrow :: body) :
    ∃ parameters rest, parametersBefore? list = some (parameters, rest) ∧
      parameters.map (·.name) = names ∧ rest.map (·.kind) = body := by
  fun_induction listedNames names generalizing list with
  | case1 => exact absurd rfl hne
  | case2 name =>
    obtain ⟨p, _, rfl, hparen⟩ := exists_token h
    obtain ⟨q, _, rfl, harrow⟩ := exists_token hparen
    obtain ⟨r, rest, rfl, hbody⟩ := exists_token harrow
    exact ⟨[⟨name, p⟩], rest, rfl, rfl, hbody⟩
  | case3 name names hmore ih =>
    obtain ⟨p, _, rfl, hcomma⟩ := exists_token h
    obtain ⟨q, list', rfl, hlist⟩ := exists_token hcomma
    obtain ⟨parameters, rest, hparameters, hnames, hbody⟩ :=
      ih (by rintro rfl; exact hmore rfl) hlist
    refine ⟨⟨name, p⟩ :: parameters, rest, ?_, by rw [List.map_cons, hnames], hbody⟩
    rw [parametersBefore?, hparameters]
    rfl

theorem lambdaHead?_listed (names : List String) {list : List Token} {body : List TokenKind}
    (h : list.map (·.kind) = listedNames names ++ .rightParen :: .arrow :: body) :
    ∃ parameters rest, lambdaHead? list = some (parameters, rest) ∧
      parameters.map (·.name) = names ∧ rest.map (·.kind) = body := by
  rcases names with _ | ⟨name, names⟩
  · obtain ⟨p, _, rfl, harrow⟩ := exists_token h
    obtain ⟨q, rest, rfl, hbody⟩ := exists_token harrow
    exact ⟨[], rest, rfl, rfl, hbody⟩
  · obtain ⟨parameters, rest, hparameters, hnames, hbody⟩ :=
      parametersBefore?_listed (List.cons_ne_nil name names) h
    refine ⟨parameters, rest, ?_, hnames, hbody⟩
    unfold lambdaHead?
    split
    · cases hparameters
    · exact hparameters

/-- No head of a lambda begins like this. -/
theorem lambdaHead?_eq_none {list : List Token} {ks : List TokenKind}
    (h : list.map (·.kind) = ks) (hclose : ∀ ks', ks ≠ .rightParen :: ks')
    (hcomma : ∀ name ks', ks ≠ .name name :: .comma :: ks')
    (hparen : ∀ name ks', ks ≠ .name name :: .rightParen :: .arrow :: ks') :
    lambdaHead? list = none := by
  unfold lambdaHead?
  split
  · exact absurd h.symm (hclose _)
  · unfold parametersBefore?
    split
    · exact absurd h.symm (hcomma _ _)
    · exact absurd h.symm (hparen _ _)
    · rfl

/-- Parameters that are no keywords and differ from one another are accepted. -/
theorem checkParameters_eq_ok {parameters : List Parameter} {earlier : List String}
    (hkeyword : ∀ n ∈ parameters.map (·.name), l.isKeyword n = false)
    (hnodup : (parameters.map (·.name)).Nodup)
    (hearlier : ∀ n ∈ parameters.map (·.name), n ∉ earlier) :
    checkParameters l earlier parameters = .ok () := by
  induction parameters generalizing earlier with
  | nil => rfl
  | cons a parameters ih =>
    rw [List.map_cons, List.nodup_cons] at hnodup
    rw [List.map_cons, List.forall_mem_cons] at hkeyword hearlier
    rw [checkParameters, if_neg (by simp [hkeyword.1]), if_neg (by simpa using hearlier.1)]
    refine ih hkeyword.2 hnodup.2 fun n hn hmem => ?_
    rcases List.mem_cons.1 hmem with rfl | hmem
    · exact hnodup.1 hn
    · exact hearlier.2 n hn hmem

end Primary

/-! ### Printed trees -/

namespace Expr

/-- The kinds of the tokens of a printed tree. -/
def kinds (e : Expr) : List TokenKind := e.pieces.map (·.kind)

/-- The kinds of the tokens of several printed trees, with commas between them. -/
def kindsOfAll (es : List Expr) : List TokenKind := (piecesOfAll es).map (·.kind)

/-- The kinds of the tokens of several printed trees, with a comma before each of them. -/
def kindsOfMore (es : List Expr) : List TokenKind := (piecesOfMore es).map (·.kind)

theorem kindsOfAll_cons (e : Expr) (es : List Expr) :
    kindsOfAll (e :: es) = e.kinds ++ kindsOfMore es := by
  simp [kindsOfAll, kindsOfMore, kinds, piecesOfAll]

theorem kindsOfMore_cons (e : Expr) (es : List Expr) :
    kindsOfMore (e :: es) = .comma :: kindsOfAll (e :: es) := by
  simp [kindsOfAll_cons, kindsOfMore, kinds, piecesOfMore]

theorem map_kind_namePieces (names : List String) :
    (namePieces names).map (·.kind) = listedNames names := by
  fun_induction namePieces names with
  | case1 => rfl
  | case2 => rfl
  | case3 word words hne ih => simp [listedNames, ih]

/-- There are at least as many tokens as commas before trees. -/
theorem length_le_kindsOfMore (es : List Expr) : es.length ≤ (kindsOfMore es).length := by
  induction es with
  | nil => exact Nat.zero_le _
  | cons e es ih =>
    rw [kindsOfMore_cons, kindsOfAll_cons]
    simp only [List.length_cons, List.length_append]
    omega

/-- A printed tree does not begin with a closing bracket, and does not look like the head of a
lambda before one. -/
theorem IsPrintable.kinds_cases {e : Expr} (h : e.IsPrintable) :
    (∃ name, e.kinds = [.name name]) ∨
      ∃ k ks, e.kinds = k :: ks ∧ k ≠ .rightParen ∧ k ≠ .rightBracket ∧
        ∀ name, k = .name name → ∃ k' ks', ks = k' :: ks' ∧ k' ≠ .comma ∧ k' ≠ .rightParen := by
  cases h with
  | name => exact .inl ⟨_, rfl⟩
  | @before o _ _ ho hfixity _ =>
    have hall : ∀ o ∈ Language.standardOperators, o.fixity = .before →
        o.token = .operator o.name := by
      decide +kernel
    have htoken := hall o ho hfixity
    refine .inr ⟨o.token, _, rfl, ?_⟩
    rw [htoken]
    simp
  | number | text | binary | after | group | lambda => exact .inr ⟨_, _, rfl, by simp⟩
  | call | index => exact .inr ⟨_, _, rfl, by simp, by simp, fun _ _ => ⟨_, _, rfl, by simp⟩⟩

theorem IsPrintable.kinds_ne_nil {e : Expr} (h : e.IsPrintable) : e.kinds ≠ [] := by
  rcases h.kinds_cases with ⟨name, hkinds⟩ | ⟨k, ks, hkinds, -⟩
  · simp [hkinds]
  · simp [hkinds]

/-! ### The parser reads what is printed -/

section Reading

variable {ts : Tokens} {close : TokenKind} {behind : List TokenKind} {es : List Expr}

theorem parseMoreArguments_reads (hes : ∀ e ∈ es, Reads .standard e.kinds e.wrapped) (hne : es ≠ [])
    (hclose : close = .rightParen ∨ close = .rightBracket) (start : Position) {fuel : Nat}
    (hfuel : es.length ≤ fuel) (h : ts.kinds = kindsOfAll es ++ close :: behind) :
    ∃ es' rest, parseMoreArguments (parseFreely .standard) close start fuel ts = .ok (es', rest) ∧
      rest.kinds = behind ∧ AllSameShape Anywhere (wrappedAll es) es' := by
  induction es generalizing ts fuel with
  | nil => exact absurd rfl hne
  | cons e es ih =>
    rw [List.forall_mem_cons] at hes
    obtain ⟨fuel, rfl⟩ : ∃ n, fuel = n + 1 := ⟨fuel - 1, by rw [List.length_cons] at hfuel; omega⟩
    rw [kindsOfAll_cons, List.append_assoc] at h
    -- what stands behind the first tree is a comma or the closing bracket
    have hcloses : Closes (kindsOfMore es ++ close :: behind) := by
      rcases es with _ | ⟨e', es⟩
      · exact closes_cons (by rcases hclose with rfl | rfl <;> simp)
      · rw [kindsOfMore_cons]
        exact closes_cons (.inr (.inr rfl))
    obtain ⟨e', mid, hparse, hmid, hshape⟩ := hes.1 ts _ h hcloses
    rw [parseMoreArguments, hparse, Except.ok_bind]
    simp only
    rcases es with _ | ⟨second, es⟩
    · have hpeek := Tokens.peek_kind_of_kinds hmid
      have hcomma : close ≠ .comma := by rcases hclose with rfl | rfl <;> simp
      rw [hpeek, if_neg hcomma, if_pos rfl]
      exact ⟨[e'], mid.next, rfl, Tokens.kinds_next_of_kinds hmid, .cons hshape .nil⟩
    · rw [kindsOfMore_cons] at hmid
      rw [if_pos (Tokens.peek_kind_of_kinds hmid)]
      obtain ⟨es', rest, hmore, hrest, hshapes⟩ := ih hes.2 (List.cons_ne_nil _ _)
        (Nat.le_of_succ_le_succ hfuel) (Tokens.kinds_next_of_kinds hmid)
      exact ⟨e' :: es', rest, by rw [hmore, Except.ok_bind], hrest, .cons hshape hshapes⟩

theorem parseArguments_reads (hprintable : ∀ e ∈ es, e.IsPrintable)
    (hes : ∀ e ∈ es, Reads .standard e.kinds e.wrapped)
    (hclose : close = .rightParen ∨ close = .rightBracket) (start : Position)
    (h : ts.kinds = kindsOfAll es ++ close :: behind) :
    ∃ es' rest, parseArguments (parseFreely .standard) close start ts = .ok (es', rest) ∧
      rest.kinds = behind ∧ AllSameShape Anywhere (wrappedAll es) es' := by
  rcases es with _ | ⟨e, es⟩
  · rw [parseArguments, if_pos (Tokens.peek_kind_of_kinds h)]
    exact ⟨[], ts.next, rfl, Tokens.kinds_next_of_kinds h, .nil⟩
  · have hlength : (e :: es).length ≤ ts.list.length + 1 := by
      have hmore := length_le_kindsOfMore es
      have htokens := congrArg List.length h
      rw [kindsOfAll_cons, Tokens.kinds] at htokens
      simp only [List.length_map, List.length_append, List.length_cons] at htokens ⊢
      omega
    -- no tree begins with a closing bracket
    have hpeek : ts.peek.kind ≠ close := by
      rw [kindsOfAll_cons] at h
      rcases (hprintable e List.mem_cons_self).kinds_cases with ⟨name, hkinds⟩ | ⟨k, ks, hkinds, hk⟩
      · rw [hkinds] at h
        rw [Tokens.peek_kind_of_kinds h]
        rcases hclose with rfl | rfl <;> simp
      · rw [hkinds] at h
        rw [Tokens.peek_kind_of_kinds h]
        rcases hclose with rfl | rfl
        · exact hk.1
        · exact hk.2.1
    rw [parseArguments, if_neg hpeek]
    exact parseMoreArguments_reads hes (List.cons_ne_nil _ _) hclose start hlength h

/-- Parentheses around a printed tree are not the head of a lambda. -/
theorem lambdaHead?_of_group {inner : Expr} {list : List Token} (hprintable : inner.IsPrintable)
    (h : list.map (·.kind) = inner.kinds ++ .rightParen :: behind)
    (hbehind : ∀ k ∈ behind.head?, k ≠ .arrow) : lambdaHead? list = none := by
  rcases hprintable.kinds_cases with ⟨name, hkinds⟩ | ⟨k, ks, hkinds, hclose, -, hname⟩
  · rw [hkinds] at h
    refine lambdaHead?_eq_none h (by simp) (by simp) fun _ ks heq => ?_
    -- the parenthesis is closed behind the name, and no arrow follows
    obtain ⟨-, heq⟩ := List.cons.inj heq
    obtain ⟨-, heq⟩ := List.cons.inj heq
    exact hbehind .arrow (by rw [show behind = _ from heq]; rfl) rfl
  · rw [hkinds] at h
    refine lambdaHead?_eq_none h (fun _ heq => hclose (List.cons.inj heq).1) ?_ ?_
    · intro n ks' heq
      obtain ⟨hk, heq⟩ := List.cons.inj heq
      obtain ⟨k', ks'', rfl, hcomma, -⟩ := hname n hk
      exact hcomma (List.cons.inj heq).1
    · intro n ks' heq
      obtain ⟨hk, heq⟩ := List.cons.inj heq
      obtain ⟨k', ks'', rfl, -, hparen⟩ := hname n hk
      exact hparen (List.cons.inj heq).1

/-- Parentheses around a printed tree are a group. -/
theorem readsOperand_group {inner : Expr} (hprintable : inner.IsPrintable)
    (h : Reads .standard inner.kinds inner.wrapped) (blank : List Char) (p : Position) :
    ReadsOperand .standard ((Piece.enclosed inner.pieces blank).map (·.kind))
      (.group inner.wrapped p) := by
  intro ts behind hts hbehind
  have hall : kindsOfAll [inner] = inner.kinds := by
    rw [kindsOfAll_cons, kindsOfMore, piecesOfMore, List.map_nil, List.append_nil]
  have hopen : ts.kinds = .leftParen :: (inner.kinds ++ .rightParen :: behind) := by
    rw [hts]
    simp [Piece.enclosed, kinds]
  have hnext := Tokens.kinds_next_of_kinds hopen
  have hpeek := Tokens.peek_kind_of_kinds hopen
  have hbefore : operatorAt? .standard .before 0 ts = none :=
    operatorAt?_of_kinds hopen (by simp) (by simp) _ _
  have hhead := lambdaHead?_of_group hprintable hnext fun k hk => (hbehind k hk).1
  rw [← hall] at hnext
  obtain ⟨es', rest, hparse, hrest, hshapes⟩ := parseArguments_reads
    (List.forall_mem_singleton.2 hprintable) (List.forall_mem_singleton.2 h) (.inl rfl)
    ts.peek.position hnext
  obtain ⟨e', rfl, hshape⟩ : ∃ e', es' = [e'] ∧ inner.wrapped.SameShape Anywhere e' := by
    cases hshapes with
    | cons hshape hnil =>
      cases hnil
      exact ⟨_, rfl, hshape⟩
  refine ⟨.group e' ts.peek.position, rest, ?_, hrest, .group hshape trivial⟩
  rw [parseOperand_of_primary hbefore, parsePrimary, hpeek]
  simp only [hhead]
  rw [hparse, Except.ok_bind]

/-- Operators are found by their tokens. -/
theorem operatorAt?_token {o : Operator} (ho : o ∈ Language.standardOperators)
    (hts : ts.kinds = o.token :: behind) :
    operatorAt? .standard o.fixity 0 ts = some o ∧
      (o.fixity = .binary → operatorAt? .standard .after 0 ts = none) := by
  have hall : ∀ o ∈ Language.standardOperators,
      operatorAt? .standard o.fixity 0 ⟨[⟨o.token, .start⟩], .start⟩ = some o ∧
        (o.fixity = .binary →
          operatorAt? .standard .after 0 ⟨[⟨o.token, .start⟩], .start⟩ = none) := by
    decide +kernel
  -- nothing but the kind of the next token is looked at
  have hfirst : ∀ fixity, operatorAt? .standard fixity 0 ts =
      operatorAt? .standard fixity 0 ⟨[⟨o.token, .start⟩], .start⟩ := by
    intro fixity
    rw [operatorAt?, Tokens.peek_kind_of_kinds hts]
    rfl
  rw [hfirst, hfirst]
  exact hall o ho

theorem token_not_opening {o : Operator} (ks : List TokenKind) :
    ∀ k ∈ (o.token :: ks).head?, k ≠ .arrow ∧ k ≠ .leftParen ∧ k ≠ .leftBracket := by
  intro k hk
  obtain rfl := Option.some.inj hk
  unfold Operator.token
  split <;> simp

variable {o : Operator} {left right operand body : Expr}

theorem reads_binary (ho : o ∈ Language.standardOperators) (hfixity : o.fixity = .binary)
    (hleft : left.IsPrintable) (hright : right.IsPrintable)
    (hreads : Reads .standard left.kinds left.wrapped)
    (hreads' : Reads .standard right.kinds right.wrapped) (p : Position) :
    Reads .standard (binary o left right p).kinds (binary o left right p).wrapped := by
  intro ts behind hts hcloses
  rw [kinds, pieces, List.map_append, List.append_assoc, List.map_cons, List.cons_append] at hts
  obtain ⟨left', mid, hparse, hmid, hshape⟩ :=
    readsOperand_group hleft hreads [' '] left.position ts _ hts (token_not_opening _)
  obtain ⟨right', rest, hparse', hrest, hshape'⟩ :=
    (readsOperand_group hright hreads' [] right.position).parseFreely o.precedence.tighter
      (Tokens.kinds_next_of_kinds hmid) hcloses
  obtain ⟨hfound, hafter⟩ := operatorAt?_token ho hmid
  rw [hfixity] at hfound
  -- both operands end with their parentheses, so no precedence is ever compared with another one
  refine ⟨binary o left' right' mid.peek.position, rest, ?_, hrest,
    .binary o hshape hshape' trivial⟩
  rw [parseFreely_of_operand hparse, parseOperators]
  simp only [hafter hfixity, hfound]
  rw [hparse', Except.ok_bind]
  exact parseOperators_of_stopsAt _ _ _ (Closes.stopsAt (hrest ▸ hcloses) _ 0)

theorem reads_before (ho : o ∈ Language.standardOperators) (hfixity : o.fixity = .before)
    (hoperand : operand.IsPrintable) (hreads : Reads .standard operand.kinds operand.wrapped)
    (p : Position) :
    Reads .standard (before o operand p).kinds (before o operand p).wrapped := by
  intro ts behind hts hcloses
  rw [kinds, pieces, List.map_cons, List.cons_append] at hts
  obtain ⟨hfound, -⟩ := operatorAt?_token ho hts
  rw [hfixity] at hfound
  have hsymbol : ∀ o ∈ Language.standardOperators, o.fixity = .before →
      o.token = .operator o.name := by
    decide +kernel
  have hnamed : beginsNamed ts = false := by
    have hpeek := (Tokens.peek_kind_of_kinds hts).trans (hsymbol o ho hfixity)
    rw [beginsNamed, hpeek]
  obtain ⟨operand', rest, hparse, hrest, hshape⟩ :=
    (readsOperand_group hoperand hreads [] operand.position).parseFreely o.precedence
      (Tokens.kinds_next_of_kinds hts) hcloses
  have hwhole : parseOperand .standard (parseFreely .standard) ts =
      .ok (before o operand' ts.peek.position, rest) := by
    rw [parseOperand, hfound]
    simp only [hnamed]
    rw [hparse]
    rfl
  exact ⟨_, rest, parseFreely_of_stopsAt hwhole (Closes.stopsAt (hrest ▸ hcloses) _ 0), hrest,
    .before o hshape trivial⟩

theorem reads_after (ho : o ∈ Language.standardOperators) (hfixity : o.fixity = .after)
    (hoperand : operand.IsPrintable) (hreads : Reads .standard operand.kinds operand.wrapped)
    (p : Position) :
    Reads .standard (after o operand p).kinds (after o operand p).wrapped := by
  intro ts behind hts hcloses
  rw [kinds, pieces, List.map_append, List.append_assoc] at hts
  obtain ⟨operand', mid, hparse, hmid, hshape⟩ :=
    readsOperand_group hoperand hreads [' '] operand.position ts _ hts (token_not_opening _)
  obtain ⟨hfound, -⟩ := operatorAt?_token ho hmid
  rw [hfixity] at hfound
  have hnext := Tokens.kinds_next_of_kinds hmid
  refine ⟨after o operand' mid.peek.position, mid.next, ?_, hnext, .after o hshape trivial⟩
  rw [parseFreely_of_operand hparse, parseOperators]
  simp only [hfound]
  exact parseOperators_of_stopsAt _ _ _ (Closes.stopsAt (hnext ▸ hcloses) _ 0)

theorem readsOperand_call {function : String} (h : Text.IsIdentifier function)
    (hprintable : ∀ e ∈ es, e.IsPrintable) (hes : ∀ e ∈ es, Reads .standard e.kinds e.wrapped)
    (p : Position) :
    ReadsOperand .standard (call function es p).kinds (call function (wrappedAll es) p) := by
  intro ts behind hts _
  have hhead : ts.kinds =
      .name function :: .leftParen :: (kindsOfAll es ++ .rightParen :: behind) := by
    rw [hts]
    simp [kinds, pieces, Piece.enclosed, kindsOfAll]
  have hnext := Tokens.kinds_next_of_kinds hhead
  obtain ⟨es', rest, hparse, hrest, hshapes⟩ := parseArguments_reads hprintable hes (.inl rfl)
    ts.peek.position (Tokens.kinds_next_of_kinds hnext)
  have hbefore := operatorAt?_before_of_name hhead (operator?_before_identifier h)
  refine ⟨call function es' ts.peek.position, rest, ?_, hrest, .call function hshapes trivial⟩
  rw [parseOperand_of_primary hbefore, parsePrimary, Tokens.peek_kind_of_kinds hhead]
  simp only [Tokens.peek_kind_of_kinds hnext]
  rw [hparse, Except.ok_bind]

theorem readsOperand_index {array : String} (h : Text.IsIdentifier array) (hne : es ≠ [])
    (hprintable : ∀ e ∈ es, e.IsPrintable) (hes : ∀ e ∈ es, Reads .standard e.kinds e.wrapped)
    (p : Position) :
    ReadsOperand .standard (index array es p).kinds (index array (wrappedAll es) p) := by
  intro ts behind hts _
  have hhead : ts.kinds =
      .name array :: .leftBracket :: (kindsOfAll es ++ .rightBracket :: behind) := by
    rw [hts]
    simp [kinds, pieces, kindsOfAll]
  have hnext := Tokens.kinds_next_of_kinds hhead
  obtain ⟨es', rest, hparse, hrest, hshapes⟩ := parseArguments_reads hprintable hes (.inr rfl)
    ts.peek.position (Tokens.kinds_next_of_kinds hnext)
  have hsome : es'.isEmpty = false := by
    rcases es with _ | ⟨e, es⟩
    · exact absurd rfl hne
    · cases hshapes
      rfl
  have hbefore := operatorAt?_before_of_name hhead (operator?_before_identifier h)
  refine ⟨index array es' ts.peek.position, rest, ?_, hrest, .index array hshapes trivial⟩
  rw [parseOperand_of_primary hbefore, parsePrimary, Tokens.peek_kind_of_kinds hhead]
  simp only [Tokens.peek_kind_of_kinds hnext]
  rw [hparse, Except.ok_bind]
  simp only [hsome]
  rfl

theorem reads_lambda {parameters : List Parameter}
    (hparameters : ∀ a ∈ parameters, Language.standard.isKeyword a.name = false)
    (hnodup : (parameters.map (·.name)).Nodup) (hreads : Reads .standard body.kinds body.wrapped)
    (p : Position) :
    Reads .standard (lambda parameters body p).kinds (lambda parameters body p).wrapped := by
  intro ts behind hts hcloses
  have hopen : ts.kinds = .leftParen :: (listedNames (parameters.map (·.name)) ++
      .rightParen :: .arrow :: (body.kinds ++ behind)) := by
    rw [hts, ← map_kind_namePieces]
    simp [kinds, pieces, Piece.enclosed]
  have hpeek := Tokens.peek_kind_of_kinds hopen
  obtain ⟨parameters', list, hhead, hnames, hlist⟩ :=
    lambdaHead?_listed _ (Tokens.kinds_next_of_kinds hopen)
  obtain ⟨body', rest, hparse, hrest, hshape⟩ := hreads ⟨list, ts.finish⟩ behind hlist hcloses
  have hcheck : checkParameters .standard [] parameters' = .ok () := by
    refine checkParameters_eq_ok ?_ (hnames ▸ hnodup) (by simp)
    rw [hnames]
    exact List.forall_mem_map.2 hparameters
  have hbefore : operatorAt? .standard .before 0 ts = none :=
    operatorAt?_of_kinds hopen (by simp) (by simp) _ _
  have hwhole : parseOperand .standard (parseFreely .standard) ts =
      .ok (lambda parameters' body' ts.peek.position, rest) := by
    rw [parseOperand_of_primary hbefore, parsePrimary, hpeek]
    simp only [hhead]
    rw [parseLambda, hcheck, Except.ok_bind, hparse, Except.ok_bind]
  exact ⟨_, rest, parseFreely_of_stopsAt hwhole (Closes.stopsAt (hrest ▸ hcloses) _ 0), hrest,
    .lambda hnames.symm hshape trivial⟩

end Reading

/-- A printed tree is read with a group around every operand. -/
theorem IsPrintable.reads {e : Expr} (h : e.IsPrintable) : Reads .standard e.kinds e.wrapped := by
  induction h with
  | name p hname => exact (readsOperand_name (operator?_before_identifier hname) p).reads
  | number p _ => exact (readsOperand_number _ _ p).reads
  | text content p => exact (readsOperand_text _ content p).reads
  | binary p ho hfixity hleft hright ihleft ihright =>
    exact reads_binary ho hfixity hleft hright ihleft ihright p
  | before p ho hfixity hoperand ih => exact reads_before ho hfixity hoperand ih p
  | after p ho hfixity hoperand ih => exact reads_after ho hfixity hoperand ih p
  | group p hinner ih => exact (readsOperand_group hinner ih [] p).reads
  | call p hname harguments ih => exact (readsOperand_call hname harguments ih p).reads
  | index p hname hne hindexes ih => exact (readsOperand_index hname hne hindexes ih p).reads
  | lambda p hparameters hnodup _ ih =>
    exact reads_lambda (fun a ha => (hparameters a ha).2) hnodup ih p

/-- Trees of one shape have as many levels. -/
theorem SameShape.depth_eq {e e' : Expr} (h : e.SameShape Anywhere e') : e'.depth = e.depth := by
  refine eq_of_forall_ge_iff fun levels => ?_
  have hdeep := h.tooDeep?_isSome levels
  rw [← tooDeep?_eq_none_iff, ← tooDeep?_eq_none_iff, ← Option.isNone_iff_eq_none,
    ← Option.isNone_iff_eq_none, ← Option.not_isSome, ← Option.not_isSome, hdeep]

end Expr

/-- A text whose tokens are read as a tree is parsed as that tree, or refused for its levels. -/
theorem Reads.parseExpression {l : Language} {ks : List TokenKind} {e : Expr} {text : String}
    {origin : Position} {ts : Tokens} (h : Reads l ks e) (hne : ks ≠ [])
    (hts : tokenize l text origin = .ok ts) (hkinds : ts.kinds = ks) :
    (e.depth ≤ 128 →
      ∃ e', parseExpression l text origin = .ok e' ∧ e.SameShape Anywhere e') ∧
    (128 < e.depth →
      ∃ p, parseExpression l text origin = .error (.malformed .nestingTooDeep p)) := by
  have hread : ts.kinds = ks ++ [] := by rw [hkinds, List.append_nil]
  obtain ⟨e', rest, hparse, hrest, hshape⟩ := h ts [] hread closes_nil
  have hsome : ts.list ≠ [] := by
    intro hnil
    rw [← hkinds, Tokens.kinds, hnil, List.map_nil] at hne
    exact hne rfl
  have hfree : parseText l (parseFreely l) text origin = .ok e' :=
    parseText_eq_ok_iff.2 ⟨ts, rest, hts, hsome, hparse, Tokens.peek_kind_eq_finish hrest⟩
  rw [← hshape.depth_eq]
  constructor
  · exact fun hdepth => ⟨e', parseExpression_eq_ok_iff_freely.2 ⟨hfree, hdepth⟩, hshape⟩
  · intro hdepth
    obtain ⟨fault, hfault, p, rfl⟩ := parseExpression_of_lt_depth hfree hdepth
    exact ⟨p, hfault⟩

/-- Parsing undoes printing. A printed tree of the standard language is parsed as the same tree with
a group around every operand of an operator, wherever the text begins, unless that tree has more
than 128 levels; then the text is refused for its levels. -/
theorem parse_print {e : Expr} (h : e.IsPrintable) (origin : Position) :
    (e.wrapped.depth ≤ 128 →
      ∃ e', parseExpression .standard (String.ofList e.print) origin = .ok e' ∧
        e.wrapped.SameShape Anywhere e') ∧
    (128 < e.wrapped.depth → ∃ p, parseExpression .standard (String.ofList e.print) origin =
      .error (.malformed .nestingTooDeep p)) := by
  obtain ⟨ts, hts, hkinds⟩ := tokenize_print h origin
  exact h.reads.parseExpression h.kinds_ne_nil hts hkinds

theorem parse_print_nested :
    ∃ e : Expr, e.IsPrintable ∧
      String.ofList e.print = "(F(() => assert, \"a\\\"b\")) + ((!(T[0x1F, (x, y) => x])) assert)" ∧
      e.wrapped.depth ≤ 128 ∧
      ∃ e', parseExpression .standard (String.ofList e.print) .start = .ok e' ∧
        e.wrapped.SameShape Anywhere e' := by
  have hname : ∀ n ∈ ["F", "T", "x", "y"], Text.IsIdentifier n := by
    have hletters : ∀ n ∈ ["F", "T", "x", "y"],
        n.toList ≠ [] ∧ n.toList.all Text.isNameStart := by
      decide +kernel
    exact fun n hn => Text.isIdentifier_of_letters (hletters n hn).1 (hletters n hn).2
  have hnumeral : Text.IsNumeral "0x1F" := ⟨'0', ['x', '1', 'F'], rfl, rfl, by decide +kernel⟩
  have hcall : (Expr.call "F" [.lambda [] (.name "assert" .start) .start, .text "a\"b" .start]
      .start).IsPrintable := by
    refine .call _ (hname "F" (by simp)) ?_
    simp only [List.forall_mem_cons]
    exact ⟨.lambda _ nofun .nil (.name _ isIdentifier_assert), .text _ _, nofun⟩
  have hindex : (Expr.index "T" [.number "0x1F" .start,
      .lambda [⟨"x", .start⟩, ⟨"y", .start⟩] (.name "x" .start) .start] .start).IsPrintable := by
    refine .index _ (hname "T" (by simp)) (by simp) ?_
    simp only [List.forall_mem_cons]
    refine ⟨.number _ hnumeral, .lambda _ ?_ (by decide) (.name _ (hname "x" (by simp))), nofun⟩
    simp only [List.forall_mem_cons]
    exact ⟨⟨hname "x" (by simp), by decide⟩, ⟨hname "y" (by simp), by decide⟩, nofun⟩
  have hprintable := Expr.IsPrintable.binary .start (o := ⟨"+", .binary, 60⟩) (by decide) rfl hcall
    (.after .start (o := ⟨"assert", .after, 90⟩) (by decide) rfl
      (.before .start (o := ⟨"!", .before, 80⟩) (by decide) rfl hindex))
  exact ⟨_, hprintable, by decide +kernel, by decide, (parse_print hprintable .start).1 (by decide)⟩

end DocQuery
