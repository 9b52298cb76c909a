/-
Chains of operators of one precedence group to the left.

* `OperatorChain` — names and numbers with operators between them;
* `OperatorChain.leftNested` — the tree of a chain whose operators group to the left;
* `Language.IsExtension` — the standard language with more symbols between operands;
* `OperatorChain.reads` — a chain below the highest precedence is read as that tree;
* `chain_groups_left` — so it is parsed, in every language of this kind, up to 128 operands.

Design notes: the right operand of an operator takes the operators that bind more tightly, so it
ends before the next operator of the chain. At the highest precedence nothing binds more tightly and
the right operand takes the rest of the chain, which `chain_groups_left_limits` shows together with
the other limit: every operator makes the tree one level deeper.
-/
import DocQuery.Proofs.Expr.RoundTrip
import DocQuery.Proofs.Expr.Table

namespace DocQuery

/-! ### Languages with more operators -/

namespace Language

variable {l : Language} {o : Operator}

/-- Whether a language has the operators of the standard one that stand before or behind an operand,
and only symbols between operands. -/
structure IsExtension (l : Language) : Prop where
  unique : (l.operators.map place).Nodup
  symbols : ∀ o ∈ l.operators, o.fixity = .binary → isWord o.name = false
  others : ∀ name fixity, fixity ≠ .binary →
    l.operator? name fixity = Language.standard.operator? name fixity
  arrow : l.arrow = "=>"

theorem standard_isExtension : Language.standard.IsExtension where
  unique := by decide
  symbols := by decide +kernel
  others := fun _ _ _ => rfl
  arrow := rfl

theorem IsExtension.withOperator (h : l.IsExtension) (hfixity : o.fixity = .binary)
    (hsymbol : isWord o.name = false) : (l.withOperator o).IsExtension where
  unique := nodup_withOperator h.unique o
  symbols := by
    intro a ha hbinary
    rcases List.mem_append.1 ha with ha | ha
    · exact h.symbols a (List.mem_filter.1 ha).1 hbinary
    · rwa [List.mem_singleton.1 ha]
  others := by
    intro name fixity hother
    have hne : ¬ (o.name = name ∧ o.fixity = fixity) :=
      fun hplace => hother (hplace.2.symm.trans hfixity)
    rw [operator?_withOperator, if_neg hne]
    exact h.others name fixity hother
  arrow := h.arrow

theorem IsExtension.withOperators (h : l.IsExtension) {os : List Operator}
    (hos : ∀ o ∈ os, o.fixity = .binary ∧ isWord o.name = false) :
    (l.withOperators os).IsExtension := by
  induction os generalizing l with
  | nil => exact h
  | cons o os ih =>
    rw [List.forall_mem_cons] at hos
    exact ih (h.withOperator hos.1.1 hos.1.2) hos.2

/-- Operators are told apart by their names and fixities. -/
theorem IsExtension.operator?_eq_some (h : l.IsExtension) (ho : o ∈ l.operators) :
    l.operator? o.name o.fixity = some o := by
  obtain ⟨as, bs, hoperators⟩ := List.append_of_mem ho
  have hunique := h.unique
  rw [hoperators, List.map_append, List.nodup_append] at hunique
  refine List.find?_eq_some_iff_append.2 ⟨by simp, as, bs, hoperators, fun a ha => ?_⟩
  by_contra hsame
  obtain ⟨hname, hfixity⟩ : a.name = o.name ∧ a.fixity = o.fixity := by simpa using hsame
  exact hunique.2.2 _ (List.mem_map_of_mem ha) _ (List.mem_map_of_mem List.mem_cons_self)
    (Prod.ext hname hfixity)

/-- A symbol is no operator that stands behind its operand. -/
theorem IsExtension.operator?_after (h : l.IsExtension) {name : String}
    (hname : isWord name = false) : l.operator? name .after = none := by
  have hword : ∀ o ∈ standardOperators, o.fixity = .after → isWord o.name = true := by
    decide +kernel
  rw [h.others name .after (by decide), operator?, List.find?_eq_none]
  intro o ho hfound
  simp only [Bool.and_eq_true, beq_iff_eq] at hfound
  have htrue := hword o ho hfound.2
  rw [hfound.1] at htrue
  exact Bool.false_ne_true (hname.symm.trans htrue)

end Language

/-! ### Chains -/

namespace Expr

/-- Whether a tree is a mere name or a number, spelled as the lexer reads it. -/
inductive IsPlain : Expr → Prop
  | name {spelling : String} (p : Position) : Text.IsIdentifier spelling →
    IsPlain (.name spelling p)
  | number {digits : String} (p : Position) : Text.IsNumeral digits → IsPlain (.number digits p)

end Expr

/-- Operands with operators between them. -/
structure OperatorChain where
  first : Expr
  links : List (Operator × Expr)

namespace OperatorChain

/-- The number of operands. -/
def count (c : OperatorChain) : Nat := c.links.length + 1

/-- The kinds of the tokens of operators with operands behind them. -/
def linkKinds (links : List (Operator × Expr)) : List TokenKind :=
  links.flatMap fun x => .operator x.1.name :: x.2.kinds

theorem linkKinds_cons (x : Operator × Expr) (links : List (Operator × Expr)) :
    linkKinds (x :: links) = .operator x.1.name :: (x.2.kinds ++ linkKinds links) := by
  rw [linkKinds, List.flatMap_cons, List.cons_append, linkKinds]

theorem length_le_linkKinds (links : List (Operator × Expr)) :
    links.length ≤ (linkKinds links).length := by
  induction links with
  | nil => exact Nat.zero_le _
  | cons x links ih =>
    rw [linkKinds_cons]
    simp only [List.length_cons, List.length_append]
    omega

/-- The kinds of the tokens of a chain. -/
def kinds (c : OperatorChain) : List TokenKind := c.first.kinds ++ linkKinds c.links

/-- The text of a chain, with a blank on both sides of every operator. -/
def print (c : OperatorChain) : List Char :=
  c.first.print ++ c.links.flatMap fun x => ' ' :: x.1.name.toList ++ ' ' :: x.2.print

/-- The tree of operators that go on with `left`, grouped to the left. -/
def nest (left : Expr) (links : List (Operator × Expr)) : Expr :=
  links.foldl (fun left x => .binary x.1 left x.2 x.2.position) left

/-- The tree of a chain whose operators group to the left. The places in it are of no account. -/
def leftNested (c : OperatorChain) : Expr := nest c.first c.links

/-- Whether the operands of a chain are names and numbers, and its operators stand between operands
in the language and have the precedence `p`. -/
structure IsUniform (l : Language) (p : Precedence) (c : OperatorChain) : Prop where
  first : c.first.IsPlain
  operands : ∀ x ∈ c.links, x.2.IsPlain
  operators : ∀ x ∈ c.links, x.1 ∈ l.operators ∧ x.1.fixity = .binary ∧ x.1.precedence = p

/-- A chain of one operand and one operator, again and again. -/
theorem isUniform_replicate {l : Language} {o : Operator} {e : Expr} (he : e.IsPlain)
    (ho : o ∈ l.operators) (hfixity : o.fixity = .binary) (n : Nat) :
    (OperatorChain.mk e (List.replicate n (o, e))).IsUniform l o.precedence := by
  refine ⟨he, fun x hx => ?_, fun x hx => ?_⟩
  · rw [List.eq_of_mem_replicate hx]
    exact he
  · rw [List.eq_of_mem_replicate hx]
    exact ⟨ho, hfixity, rfl⟩

end OperatorChain

/-! ### The parser groups chains to the left -/

section

variable {l : Language} {p : Precedence} {o : Operator} {ts : Tokens} {behind : List TokenKind}

open OperatorChain

/-- A name that is no operator before an operand and a number are read as they are. -/
theorem Expr.IsPlain.readsOperand {e : Expr} (h : e.IsPlain) (hl : l.IsExtension) :
    ReadsOperand l e.kinds e := by
  cases h with
  | @name spelling q hname =>
    refine readsOperand_name ?_ q
    rw [hl.others spelling .before (by decide)]
    exact operator?_before_identifier hname
  | number q _ => exact readsOperand_number l _ q

/-- A symbol between operands is taken exactly where its precedence is enough. -/
theorem Language.IsExtension.operatorAt?_binary (hl : l.IsExtension) (ho : o ∈ l.operators)
    (hfixity : o.fixity = .binary) (hts : ts.kinds = .operator o.name :: behind)
    (least : Precedence) :
    operatorAt? l .after least ts = none ∧
      operatorAt? l .binary least ts = if least ≤ o.precedence then some o else none := by
  have hfound := hl.operator?_eq_some ho
  rw [hfixity] at hfound
  rw [operatorAt?, operatorAt?, Tokens.peek_kind_of_kinds hts]
  simp only [hl.operator?_after (hl.symbols o ho hfixity), hfound, Option.filter_none,
    Option.filter_some, decide_eq_true_eq, true_and]

/-- The right operand of an operator ends before the next operator of the chain. -/
theorem stopsAt_tighter (hl : l.IsExtension) (hp : p < 255) {links : List (Operator × Expr)}
    (hlinks : ∀ x ∈ links, x.1 ∈ l.operators ∧ x.1.fixity = .binary ∧ x.1.precedence = p)
    (hts : ts.kinds = linkKinds links ++ behind) (hbehind : Closes behind) :
    l.StopsAt p.tighter ts := by
  rcases links with _ | ⟨x, links⟩
  · exact Closes.stopsAt (by rw [hts]; exact hbehind) l _
  · obtain ⟨ho, hfixity, rfl⟩ := hlinks x List.mem_cons_self
    have hlooser := Precedence.lt_of_tighter_le hp (UInt8.le_refl _)
    obtain ⟨hafter, hbinary⟩ := hl.operatorAt?_binary ho hfixity hts (Precedence.tighter _)
    refine ⟨hafter, ?_⟩
    rw [hbinary, if_neg (UInt8.not_le.2 hlooser)]

theorem not_opening_linkKinds (links : List (Operator × Expr)) (hbehind : Closes behind) :
    ∀ k ∈ (linkKinds links ++ behind).head?, k ≠ .arrow ∧ k ≠ .leftParen ∧ k ≠ .leftBracket := by
  rcases links with _ | ⟨x, links⟩
  · exact hbehind.not_opening
  · intro k hk
    obtain rfl := Option.some.inj hk
    simp

/-- Every operator of a chain takes one operand to what was read before it. -/
theorem parseOperators_chain (hl : l.IsExtension) (hp : p < 255)
    {links : List (Operator × Expr)} (hplain : ∀ x ∈ links, x.2.IsPlain)
    (hlinks : ∀ x ∈ links, x.1 ∈ l.operators ∧ x.1.fixity = .binary ∧ x.1.precedence = p)
    (hts : ts.kinds = linkKinds links ++ behind) (hbehind : Closes behind) {fuel : Nat}
    (hfuel : links.length ≤ fuel) {left left' : Expr} (hleft : left.SameShape Anywhere left') :
    ∃ e rest, parseOperators l (parseFreely l) 0 fuel left' ts = .ok (e, rest) ∧
      rest.kinds = behind ∧ (nest left links).SameShape Anywhere e := by
  induction links generalizing ts fuel left left' with
  | nil =>
    have hstops := Closes.stopsAt (show Closes ts.kinds by rw [hts]; exact hbehind) l 0
    exact ⟨left', ts, parseOperators_of_stopsAt _ _ _ hstops, hts, hleft⟩
  | cons x links ih =>
    obtain ⟨fuel, rfl⟩ : ∃ n, fuel = n + 1 := ⟨fuel - 1, by rw [List.length_cons] at hfuel; omega⟩
    rw [List.forall_mem_cons] at hplain hlinks
    obtain ⟨⟨ho, hfixity, hprecedence⟩, hlinks⟩ := hlinks
    obtain ⟨hafter, hbinary⟩ := hl.operatorAt?_binary ho hfixity hts 0
    have hnext : ts.next.kinds = x.2.kinds ++ (linkKinds links ++ behind) := by
      rw [linkKinds_cons, List.cons_append] at hts
      rw [Tokens.kinds_next_of_kinds hts, List.append_assoc]
    obtain ⟨right, rest, hright, hrest, hshape⟩ :=
      hplain.1.readsOperand hl ts.next _ hnext (not_opening_linkKinds links hbehind)
    -- the next operator of the chain binds too loosely for the right operand to take it
    have hparse := parseFreely_of_stopsAt hright (stopsAt_tighter hl hp hlinks hrest hbehind)
    have hgrown : (Expr.binary x.1 left x.2 x.2.position).SameShape Anywhere
        (.binary x.1 left' right ts.peek.position) := .binary x.1 hleft hshape trivial
    obtain ⟨e, last, hmore, hlast, hwhole⟩ :=
      ih hplain.2 hlinks hrest (Nat.le_of_succ_le_succ hfuel) hgrown
    refine ⟨e, last, ?_, hlast, hwhole⟩
    rw [parseOperators]
    simp only [hafter, hbinary, if_pos (UInt8.zero_le), hprecedence]
    rw [hparse, Except.ok_bind]
    exact hmore

/-- A chain below the highest precedence is read as the tree that groups it to the left. -/
theorem OperatorChain.IsUniform.reads {c : OperatorChain} (hc : c.IsUniform l p)
    (hl : l.IsExtension) (hp : p < 255) : Reads l c.kinds c.leftNested := by
  intro ts behind hts hbehind
  rw [OperatorChain.kinds, List.append_assoc] at hts
  obtain ⟨first, mid, hfirst, hmid, hshape⟩ :=
    hc.first.readsOperand hl ts _ hts (not_opening_linkKinds c.links hbehind)
  have hfuel : c.links.length ≤ mid.list.length + 1 := by
    have hlength : c.links.length ≤ (linkKinds c.links).length := length_le_linkKinds c.links
    have htokens := congrArg List.length hmid
    rw [Tokens.kinds, List.length_map, List.length_append] at htokens
    omega
  obtain ⟨e, rest, hparse, hrest, hwhole⟩ :=
    parseOperators_chain hl hp hc.operands hc.operators hmid hbehind hfuel hshape
  exact ⟨e, rest, by rw [parseFreely_of_operand hfirst, hparse], hrest, hwhole⟩

theorem Expr.IsPlain.depth_eq {e : Expr} (h : e.IsPlain) : e.depth = 1 := by
  cases h <;> rfl

theorem depth_nest (left : Expr) {links : List (Operator × Expr)}
    (hplain : ∀ x ∈ links, x.2.IsPlain) :
    (nest left links).depth = left.depth + links.length := by
  induction links generalizing left with
  | nil => rfl
  | cons x links ih =>
    rw [List.forall_mem_cons] at hplain
    have hpos := Nat.lt_of_lt_of_le left.nesting_pos left.nesting_le_depth
    have hmore := ih (.binary x.1 left x.2 x.2.position) hplain.2
    rw [Expr.depth, hplain.1.depth_eq] at hmore
    rw [nest, List.foldl_cons, ← nest, hmore, List.length_cons]
    omega

/-- Every operator makes the tree of a chain one level deeper. -/
theorem OperatorChain.IsUniform.depth_eq {c : OperatorChain} (hc : c.IsUniform l p) :
    c.leftNested.depth = c.count := by
  rw [leftNested, depth_nest c.first hc.operands, hc.first.depth_eq, count, Nat.add_comm]

/-! ### The lexer reads chains -/

/-- Whether the lexer takes a symbol of the language whole where a blank stands behind it: it begins
with nothing else, the arrow does not begin it, and no symbol holds a blank. -/
structure Language.Spells (l : Language) (symbol : String) : Prop where
  begins : isSymbolic symbol
  noArrow : fitsAt symbol.toList l.arrow = false
  noBlank : ∀ s, l.HasSymbol s → ' ' ∉ s.toList

/-- A name or a number is one piece. -/
theorem Expr.IsPlain.exists_kind {e : Expr} (h : e.IsPlain) :
    ∃ kind, e.kinds = [kind] ∧
      ∀ behind, EndsWord behind → TokenKind.IsCut l behind kind e.print := by
  cases h with
  | name q hname => exact ⟨_, rfl, fun _ => isCut_identifier hname⟩
  | number q hdigits => exact ⟨_, rfl, fun _ => isCut_numeral hdigits⟩

theorem isCut_operator_of_spells (hl : l.IsExtension) (ho : o ∈ l.operators)
    (hfixity : o.fixity = .binary) (hspells : l.Spells o.name) (behind : List Char) :
    TokenKind.IsCut l (' ' :: behind) (.operator o.name) o.name.toList := by
  have hsymbol : l.HasSymbol o.name := ⟨⟨o, ho, rfl⟩, hl.symbols o ho hfixity⟩
  refine isCut_symbol hsymbol hspells.begins hspells.noArrow fun d hd => ?_
  obtain rfl := Option.some.inj hd
  rw [hl.arrow]
  exact ⟨by decide, hspells.noBlank⟩

/-- The pieces of an operand and the links behind it. -/
theorem exists_pieces_of_chain (hl : l.IsExtension) {first : Expr} (hfirst : first.IsPlain)
    {links : List (Operator × Expr)} (hplain : ∀ x ∈ links, x.2.IsPlain)
    (hlinks : ∀ x ∈ links, x.1 ∈ l.operators ∧ x.1.fixity = .binary ∧ x.1.precedence = p)
    (hspells : ∀ x ∈ links, l.Spells x.1.name) :
    ∃ xs, Piece.Fit l xs ∧ Piece.join xs = (OperatorChain.mk first links).print ∧
      xs.map (·.kind) = (OperatorChain.mk first links).kinds := by
  have hblank : ∀ c ∈ [' '], Text.isBlank c := List.forall_mem_singleton.2 (by decide)
  induction links generalizing first with
  | nil =>
    obtain ⟨kind, hkinds, hcut⟩ := hfirst.exists_kind (l := l)
    refine ⟨[⟨kind, first.print, []⟩], .cons nofun (hcut _ endsWord_nil) .nil, ?_, ?_⟩
    · simp [OperatorChain.print]
    · simp [OperatorChain.kinds, linkKinds, hkinds]
  | cons x links ih =>
    rw [List.forall_mem_cons] at hplain hlinks hspells
    obtain ⟨xs, hfit, hjoin, hkinds⟩ := ih hplain.1 hplain.2 hlinks.2 hspells.2
    obtain ⟨kind, hfirstKinds, hcut⟩ := hfirst.exists_kind (l := l)
    have hoperator := isCut_operator_of_spells hl hlinks.1.1 hlinks.1.2.1 hspells.1
    refine ⟨⟨kind, first.print, [' ']⟩ :: ⟨.operator x.1.name, x.1.name.toList, [' ']⟩ :: xs,
      .cons hblank (hcut _ (endsWord_cons (by decide))) (.cons hblank (hoperator _) hfit), ?_, ?_⟩
    · rw [Piece.join_cons, Piece.join_cons, hjoin]
      simp [OperatorChain.print]
    · rw [List.map_cons, List.map_cons, hkinds]
      simp [OperatorChain.kinds, linkKinds_cons, hfirstKinds]

/-- The lexer reads a chain that is printed with blanks around its operators. -/
theorem OperatorChain.IsUniform.tokenize_print {c : OperatorChain} (hc : c.IsUniform l p)
    (hl : l.IsExtension) (hspells : ∀ x ∈ c.links, l.Spells x.1.name) (origin : Position) :
    ∃ ts, tokenize l (String.ofList c.print) origin = .ok ts ∧ ts.kinds = c.kinds := by
  obtain ⟨xs, hfit, hjoin, hkinds⟩ :=
    exists_pieces_of_chain hl hc.first hc.operands hc.operators hspells
  refine ⟨_, tokenize_eq_ok_iff.2 ⟨[], xs, nofun, hfit, ?_, rfl⟩, ?_⟩
  · rw [String.toList_ofList, hjoin, List.nil_append]
  · rw [Tokens.kinds, Piece.map_kind_place, hkinds]

end

/-- Operators between operands group to the left. In the standard language with any further symbols
between operands, a text whose tokens are a chain of names and numbers with operators of one
precedence below the highest between them is parsed as the tree that groups them to the left, if it
has 128 operands at most; a longer one is refused for its levels. A chain that is printed with
blanks around its operators is such a text. -/
theorem chain_groups_left {extra : List Operator} {l : Language} {p : Precedence}
    {c : OperatorChain} (hextra : ∀ o ∈ extra, o.fixity = .binary ∧ isWord o.name = false)
    (hl : l = Language.standard.withOperators extra) (hp : p < 255) (hc : c.IsUniform l p) :
    (∀ text origin ts, tokenize l text origin = .ok ts → ts.kinds = c.kinds →
      (c.count ≤ 128 →
        ∃ e, parseExpression l text origin = .ok e ∧ c.leftNested.SameShape Anywhere e) ∧
      (128 < c.count →
        ∃ q, parseExpression l text origin = .error (.malformed .nestingTooDeep q))) ∧
    ((∀ x ∈ c.links, l.Spells x.1.name) →
      ∀ origin, ∃ ts, tokenize l (String.ofList c.print) origin = .ok ts ∧ ts.kinds = c.kinds) := by
  have hextension : l.IsExtension := hl ▸ Language.standard_isExtension.withOperators hextra
  have hne : c.kinds ≠ [] := by
    obtain ⟨kind, hkinds, -⟩ := hc.first.exists_kind (l := l)
    simp [OperatorChain.kinds, hkinds]
  refine ⟨fun text origin ts hts hkinds => ?_, fun hspells origin =>
    hc.tokenize_print hextension hspells origin⟩
  rw [← hc.depth_eq]
  exact (hc.reads hextension hp).parseExpression hne hts hkinds

theorem chain_groups_left_mixed :
    ∃ (l : Language) (c : OperatorChain),
      l = Language.standard.withOperators [⟨"**", .binary, 60⟩, ⟨"<=>", .binary, 60⟩] ∧
      c.IsUniform l 60 ∧ c.count = 4 ∧ String.ofList c.print = "a + 0x1F ** b <=> 2.5" ∧
      ∃ e, parseExpression l (String.ofList c.print) .start = .ok e ∧
        c.leftNested.SameShape Anywhere e := by
  set l := Language.standard.withOperators [⟨"**", .binary, 60⟩, ⟨"<=>", .binary, 60⟩] with hl
  have hname : ∀ n ∈ ["a", "b"], Text.IsIdentifier n := by
    have hletters : ∀ n ∈ ["a", "b"], n.toList ≠ [] ∧ n.toList.all Text.isNameStart := by
      decide +kernel
    exact fun n hn => Text.isIdentifier_of_letters (hletters n hn).1 (hletters n hn).2
  have hc : (OperatorChain.mk (.name "a" .start) [(⟨"+", .binary, 60⟩, .number "0x1F" .start),
      (⟨"**", .binary, 60⟩, .name "b" .start),
      (⟨"<=>", .binary, 60⟩, .number "2.5" .start)]).IsUniform l 60 := by
    refine ⟨.name _ (hname "a" (by simp)), ?_, by decide +kernel⟩
    simp only [List.forall_mem_cons]
    exact ⟨.number _ ⟨'0', ['x', '1', 'F'], rfl, rfl, by decide +kernel⟩,
      .name _ (hname "b" (by simp)),
      .number _ ⟨'2', ['.', '5'], rfl, rfl, by decide +kernel⟩, List.forall_mem_nil _⟩
  have hblank : ∀ s, l.HasSymbol s → ' ' ∉ s.toList := by
    have hall : ∀ o ∈ l.operators, ' ' ∉ o.name.toList := by decide +kernel
    rintro _ ⟨⟨o, ho, rfl⟩, -⟩
    exact hall o ho
  have hspells : ∀ o ∈ ["+", "**", "<=>"], l.Spells o := by
    have hall : ∀ o ∈ ["+", "**", "<=>"], isSymbolic o ∧ fitsAt o.toList l.arrow = false := by
      decide +kernel
    exact fun o ho => ⟨(hall o ho).1, (hall o ho).2, hblank⟩
  obtain ⟨hparse, htokens⟩ := chain_groups_left (by decide +kernel) hl (by decide) hc
  obtain ⟨ts, hts, hkinds⟩ := htokens (by simpa using hspells) .start
  exact ⟨l, _, hl, hc, rfl, by decide +kernel, (hparse _ _ ts hts hkinds).1 (by decide)⟩

/-- The limits of grouping to the left: a chain of 129 operands is refused for its levels, at the
highest precedence a chain groups to the right, and a symbol that is also the arrow is never an
operator. -/
theorem chain_groups_left_limits :
    (∃ c : OperatorChain, c.IsUniform .standard 60 ∧ c.count = 129 ∧
      ∃ q, parseExpression .standard (String.ofList c.print) .start =
        .error (.malformed .nestingTooDeep q)) ∧
    (∃ c : OperatorChain, c.IsUniform (Language.standard.withOperators [⟨"**", .binary, 255⟩]) 255 ∧
      String.ofList c.print = "a ** b ** c" ∧
      ∃ e, parseExpression (Language.standard.withOperators [⟨"**", .binary, 255⟩]) "a ** b ** c"
        .start = .ok e ∧ ¬ c.leftNested.SameShape Anywhere e) ∧
    (∃ c : OperatorChain, c.IsUniform (Language.standard.withOperators [⟨"=>", .binary, 60⟩]) 60 ∧
      String.ofList c.print = "a => b => c" ∧
      ∃ e, parseExpression (Language.standard.withOperators [⟨"=>", .binary, 60⟩]) "a => b => c"
        .start = .ok e ∧ ¬ c.leftNested.SameShape Anywhere e) := by
  have hname : ∀ n ∈ ["a", "b", "c"], (Expr.name n .start).IsPlain := by
    have hletters : ∀ n ∈ ["a", "b", "c"], n.toList ≠ [] ∧ n.toList.all Text.isNameStart := by
      decide +kernel
    exact fun n hn => .name _ (Text.isIdentifier_of_letters (hletters n hn).1 (hletters n hn).2)
  refine ⟨?_, ?_, ?_⟩
  · have hc := OperatorChain.isUniform_replicate (hname "a" (by simp))
      (show ⟨"+", .binary, 60⟩ ∈ Language.standard.operators by decide) rfl 128
    have hspells : Language.standard.Spells "+" := by
      have hends : EndsWord [' '] := endsWord_cons (by simp)
      exact ⟨by decide +kernel, by decide, fun s hs => not_mem_of_hasSymbol hs hends ' ' rfl⟩
    obtain ⟨ts, hts, hkinds⟩ := hc.tokenize_print Language.standard_isExtension
      (fun x hx => by rw [List.eq_of_mem_replicate hx]; exact hspells) .start
    have hparse := (hc.reads Language.standard_isExtension (by decide)).parseExpression
      (by simp [OperatorChain.kinds, Expr.kinds, Expr.pieces]) hts hkinds
    rw [hc.depth_eq] at hparse
    exact ⟨_, hc, by simp [OperatorChain.count], hparse.2 (by simp [OperatorChain.count])⟩
  · refine ⟨⟨.name "a" .start, [(⟨"**", .binary, 255⟩, .name "b" .start),
      (⟨"**", .binary, 255⟩, .name "c" .start)]⟩, ⟨hname "a" (by simp), ?_, ?_⟩, by decide +kernel,
      .binary ⟨"**", .binary, 255⟩ (.name "a" ⟨1, 1⟩) (.binary ⟨"**", .binary, 255⟩
        (.name "b" ⟨1, 6⟩) (.name "c" ⟨1, 11⟩) ⟨1, 8⟩) ⟨1, 3⟩, by rfl, ?_⟩
    · simp only [List.forall_mem_cons]
      exact ⟨hname "b" (by simp), hname "c" (by simp), List.forall_mem_nil _⟩
    · decide +kernel
    · intro hshape
      cases hshape with
      | binary _ hleft _ _ => cases hleft
  · refine ⟨⟨.name "a" .start, [(⟨"=>", .binary, 60⟩, .name "b" .start),
      (⟨"=>", .binary, 60⟩, .name "c" .start)]⟩, ⟨hname "a" (by simp), ?_, ?_⟩, by decide +kernel,
      .lambda [⟨"a", ⟨1, 1⟩⟩] (.lambda [⟨"b", ⟨1, 6⟩⟩] (.name "c" ⟨1, 11⟩) ⟨1, 6⟩) ⟨1, 1⟩,
      by rfl, ?_⟩
    · simp only [List.forall_mem_cons]
      exact ⟨hname "b" (by simp), hname "c" (by simp), List.forall_mem_nil _⟩
    · decide +kernel
    · intro hshape
      cases hshape

end DocQuery
