/-
The limit on nesting refuses exactly the trees that are too deep.

* `parseLevel` — what the parser does on one level, over a parser for the level below;
* `parseFreely` — the parser without a limit, the only one that is its own level below;
* `Expr.nesting` — the levels that the parser enters for a tree;
* `Curbs` — a computation with a limit, beside the same one without;
* `parseLevel_curbs` — a level over a limited parser is limited by one level more;
* `nesting_guard_is_exact` — a text is an expression exactly if it is one without the limits and
  its tree has 128 levels at most.

Design notes: a chain of operators grows the tree without entering levels of the parser, so the
levels of the parser are at most those of the tree. What a limited level does is followed once, over
any two parsers that agree on fewer tokens. That there is one free parser and no other is the case
of a limit that is never reached.
-/
import DocQuery.Proofs.Expr.Writing
import Mathlib.Logic.Function.Iterate

namespace DocQuery

/-! ### Levels -/

/-- An operand and the operators that go on with it, over a parser for what is inside of them. -/
def parseLevel (l : Language) (parse : ExprParser) : ExprParser := fun least ts => do
  let (left, rest) ← parseOperand l parse ts
  parseOperators l parse least (rest.list.length + 1) left rest

theorem parseOperation_succ (l : Language) (levels : Nat) :
    parseOperation l (levels + 1) = parseLevel l (parseOperation l levels) := rfl

/-- The parser of expressions without a limit. Every level takes a token, so there are never more
levels than tokens. -/
def parseFreely (l : Language) : ExprParser := fun least ts =>
  parseOperation l (ts.list.length + 1) least ts

/-- The syntax tree of a whole text that `parse` reads, of any number of levels. -/
def parseText (l : Language) (parse : ExprParser) (text : String) (origin : Position) :
    Except Fault Expr := do
  let tokens ← tokenize l text origin
  if tokens.list.isEmpty then
    .error (.malformed .emptyExpression origin)
  else
    let (e, rest) ← parse 0 tokens
    if rest.peek.kind ≠ .finish then
      .error (.malformed (.unexpectedToken rest.peek.kind) rest.peek.position)
    else .ok e

namespace Expr

mutual

/-- The levels that the parser enters for a tree: what stands left of an operator is read on the
level of the operator. -/
def nesting : Expr → Nat
  | name _ _ | number _ _ | text _ _ => 1
  | binary _ left right _ => max left.nesting (right.nesting + 1)
  | before _ operand _ => operand.nesting + 1
  | after _ operand _ => operand.nesting
  | group inner _ => inner.nesting + 1
  | call _ arguments _ => nestingOfAll arguments + 1
  | index _ indexes _ => nestingOfAll indexes + 1
  | lambda _ body _ => body.nesting + 1

/-- The levels that the parser enters for several trees inside another one. -/
def nestingOfAll : List Expr → Nat
  | [] => 0
  | e :: es => max e.nesting (nestingOfAll es)

end

theorem nesting_pos : (e : Expr) → 0 < e.nesting
  | name _ _ | number _ _ | text _ _ => Nat.one_pos
  | binary _ left _ _ => Nat.lt_of_lt_of_le left.nesting_pos (Nat.le_max_left _ _)
  | after _ operand _ => operand.nesting_pos
  | before _ _ _ | group _ _ | call _ _ _ | index _ _ _ | lambda _ _ _ => Nat.succ_pos _

theorem nestingOfAll_le_iff {n : Nat} {es : List Expr} :
    nestingOfAll es ≤ n ↔ ∀ e ∈ es, e.nesting ≤ n := by
  induction es with
  | nil => simp [nestingOfAll]
  | cons e es ih => rw [nestingOfAll, Nat.max_le, ih, List.forall_mem_cons]

mutual

/-- The parser never enters more levels than the tree has. -/
theorem nesting_le_depth : (e : Expr) → e.nesting ≤ e.depth
  | name _ _ | number _ _ | text _ _ => Nat.le_refl _
  | binary _ left right _ => by
    have hleft := nesting_le_depth left
    have hright := nesting_le_depth right
    rw [nesting, depth]
    omega
  | after _ operand _ => Nat.le_succ_of_le (nesting_le_depth operand)
  | before _ operand _ => Nat.succ_le_succ (nesting_le_depth operand)
  | group inner _ => Nat.succ_le_succ (nesting_le_depth inner)
  | call _ arguments _ => Nat.succ_le_succ (nestingOfAll_le_depthOfAll arguments)
  | index _ indexes _ => Nat.succ_le_succ (nestingOfAll_le_depthOfAll indexes)
  | lambda _ body _ => Nat.succ_le_succ (nesting_le_depth body)

theorem nestingOfAll_le_depthOfAll : (es : List Expr) → nestingOfAll es ≤ depthOfAll es
  | [] => Nat.le_refl _
  | e :: es => by
    have he := nesting_le_depth e
    have hes := nestingOfAll_le_depthOfAll es
    rw [nestingOfAll, depthOfAll]
    omega

end

mutual

/-- A tree goes nowhere below `levels` levels exactly if it has no more of them. -/
theorem tooDeep?_eq_none_iff : (e : Expr) → (levels : Nat) →
    (e.tooDeep? levels = none ↔ e.depth ≤ levels)
  | e, 0 => by
    have hdepth := Nat.lt_of_lt_of_le e.nesting_pos e.nesting_le_depth
    rw [tooDeep?]
    simp only [reduceCtorEq, false_iff]
    omega
  | name _ _, levels + 1 | number _ _, levels + 1 | text _ _, levels + 1 => by
    simp [tooDeep?, depth]
  | binary _ left right _, levels + 1 => by
    rw [tooDeep?, depth, Option.or_eq_none_iff, tooDeep?_eq_none_iff right,
      tooDeep?_eq_none_iff left]
    omega
  | before _ operand _, levels + 1 => by
    rw [tooDeep?, depth, tooDeep?_eq_none_iff operand, Nat.add_le_add_iff_right]
  | after _ operand _, levels + 1 => by
    rw [tooDeep?, depth, tooDeep?_eq_none_iff operand, Nat.add_le_add_iff_right]
  | group inner _, levels + 1 => by
    rw [tooDeep?, depth, tooDeep?_eq_none_iff inner, Nat.add_le_add_iff_right]
  | call _ arguments _, levels + 1 => by
    rw [tooDeep?, depth, anyTooDeep?_eq_none_iff arguments, Nat.add_le_add_iff_right]
  | index _ indexes _, levels + 1 => by
    rw [tooDeep?, depth, anyTooDeep?_eq_none_iff indexes, Nat.add_le_add_iff_right]
  | lambda _ body _, levels + 1 => by
    rw [tooDeep?, depth, tooDeep?_eq_none_iff body, Nat.add_le_add_iff_right]

theorem anyTooDeep?_eq_none_iff : (es : List Expr) → (levels : Nat) →
    (anyTooDeep? levels es = none ↔ depthOfAll es ≤ levels)
  | [], levels => by simp [anyTooDeep?, depthOfAll]
  | e :: es, levels => by
    rw [anyTooDeep?, depthOfAll, Option.or_eq_none_iff, anyTooDeep?_eq_none_iff es,
      tooDeep?_eq_none_iff e, Nat.max_le, and_comm]

end

/-- Whether what is read a level below a tree is so. What stands left of an operator is read on the
level of the operator, so there it is looked for further inside. -/
def Inner (P : Expr → Prop) : Expr → Prop
  | name _ _ | number _ _ | text _ _ => True
  | binary _ left right _ => left.Inner P ∧ P right
  | before _ operand _ => P operand
  | after _ operand _ => operand.Inner P
  | group inner _ => P inner
  | call _ arguments _ => ∀ e ∈ arguments, P e
  | index _ indexes _ => ∀ e ∈ indexes, P e
  | lambda _ body _ => P body

theorem inner_nesting_iff {n : Nat} (e : Expr) :
    e.Inner (fun e => e.nesting ≤ n) ↔ e.nesting ≤ n + 1 := by
  induction e using Expr.Inner.induct with
  | case1 | case2 | case3 => simp [Inner, nesting]
  | case4 _ left right _ ih =>
    rw [Inner, ih, nesting, Nat.max_le, Nat.add_le_add_iff_right]
  | case5 | case7 | case10 => rw [Inner, nesting, Nat.add_le_add_iff_right]
  | case6 _ operand _ ih => rw [Inner, ih, nesting]
  | case8 | case9 => rw [Inner, nesting, Nat.add_le_add_iff_right, nestingOfAll_le_iff]

theorem inner_of_forall {P : Expr → Prop} (h : ∀ e, P e) (e : Expr) : e.Inner P := by
  induction e using Expr.Inner.induct with
  | case1 | case2 | case3 => trivial
  | case4 _ _ right _ ih => exact ⟨ih, h right⟩
  | case6 _ _ _ ih => exact ih
  | case5 | case7 | case10 => exact h _
  | case8 | case9 => exact fun e _ => h e

end Expr

/-! ### A computation with a limit -/

/-- Whether `x` does what `y` does as long as it reaches no limit. It finds what fits, and leaves
fewer than `bound` tokens; where it escapes with a fault, `y` finds nothing that fits. -/
inductive Curbs {α : Type} (Fits : α → Prop) (Escapes : Fault → Prop) (bound : Nat) :
    (x y : Except Fault (α × Tokens)) → Prop
  | ok {a : α} {rest : Tokens} (fits : Fits a) (shorter : rest.list.length < bound) :
    Curbs Fits Escapes bound (.ok (a, rest)) (.ok (a, rest))
  | error (fault : Fault) : Curbs Fits Escapes bound (.error fault) (.error fault)
  | escape {fault : Fault} {y : Except Fault (α × Tokens)} (escapes : Escapes fault)
    (unfit : ∀ a rest, y = .ok (a, rest) → ¬ Fits a) : Curbs Fits Escapes bound (.error fault) y

namespace Curbs

variable {α β : Type} {Fits : α → Prop} {Fits' : β → Prop} {Escapes : Fault → Prop}
  {bound bound' : Nat} {x y : Except Fault (α × Tokens)}
  {f g : α × Tokens → Except Fault (β × Tokens)}

theorem mono (h : Curbs Fits Escapes bound x y) (hbound : bound ≤ bound') :
    Curbs Fits Escapes bound' x y := by
  cases h with
  | ok fits shorter => exact .ok fits (Nat.lt_of_lt_of_le shorter hbound)
  | error fault => exact .error fault
  | escape escapes unfit => exact .escape escapes unfit

/-- What goes on with what was found is limited where its steps are, if nothing that fits is made of
what does not. -/
theorem bind (h : Curbs Fits Escapes bound x y)
    (hstep : ∀ a rest, Fits a → rest.list.length < bound →
      Curbs Fits' Escapes bound' (f (a, rest)) (g (a, rest)))
    (hback : ∀ a rest b rest', g (a, rest) = .ok (b, rest') → Fits' b → Fits a) :
    Curbs Fits' Escapes bound' (x >>= f) (y >>= g) := by
  cases h with
  | ok fits shorter => exact hstep _ _ fits shorter
  | error fault => exact .error fault
  | escape escapes unfit =>
    refine .escape escapes fun b rest' hb hfits => ?_
    obtain ⟨⟨a, rest⟩, ha, hg⟩ := Except.bind_eq_ok_iff.mp hb
    exact unfit a rest ha (hback a rest b rest' hg hfits)

theorem congr {Fits' : α → Prop} (h : Curbs Fits Escapes bound x y)
    (hfits : ∀ a, Fits a ↔ Fits' a) : Curbs Fits' Escapes bound x y := by
  cases h with
  | ok fits shorter => exact .ok ((hfits _).1 fits) shorter
  | error fault => exact .error fault
  | escape escapes unfit =>
    exact .escape escapes fun a rest ha => mt (hfits a).2 (unfit a rest ha)

/-- With the limit the results are those that fit. -/
theorem eq_ok_iff {a : α} {rest : Tokens} (h : Curbs Fits Escapes bound x y) :
    x = .ok (a, rest) ↔ y = .ok (a, rest) ∧ Fits a := by
  cases h with
  | ok fits shorter =>
    constructor
    · intro ha
      cases ha
      exact ⟨rfl, fits⟩
    · exact And.left
  | error fault => simp
  | escape escapes unfit => simpa using unfit a rest

theorem exists_escape {a : α} {rest : Tokens} (h : Curbs Fits Escapes bound x y)
    (hy : y = .ok (a, rest)) (hfits : ¬ Fits a) : ∃ fault, x = .error fault ∧ Escapes fault := by
  cases h with
  | ok fits shorter =>
    cases hy
    exact absurd fits hfits
  | error fault => cases hy
  | @escape fault _ escapes unfit => exact ⟨fault, rfl, escapes⟩

/-- Without a way to escape there is no difference. -/
theorem eq (h : Curbs Fits Escapes bound x y) (hnever : ∀ fault, ¬ Escapes fault) : x = y := by
  cases h with
  | ok | error => rfl
  | escape escapes => exact absurd escapes (hnever _)

end Curbs

/-- Whether the parser `p` does what `q` does on fewer than `n` tokens, as long as it reaches no
limit. -/
def ExprParser.Curbs (P : Expr → Prop) (Escapes : Fault → Prop) (n : Nat) (p q : ExprParser) :
    Prop :=
  ∀ least ts, ts.list.length < n →
    DocQuery.Curbs P Escapes ts.list.length (p least ts) (q least ts)

theorem Tokens.length_next_lt {ts : Tokens} (h : ts.peek.kind ≠ .finish) :
    ts.next.list.length < ts.list.length := by
  rw [list_eq_of_peek h]
  exact Nat.lt_succ_self _

theorem Tokens.length_next_lt_of_eq {ts : Tokens} {kind : TokenKind} (hkind : ts.peek.kind = kind)
    (h : kind ≠ .finish) : ts.next.list.length < ts.list.length :=
  length_next_lt (hkind ▸ h)

theorem length_next_lt_of_operatorAt? {l : Language} {fixity : Fixity} {least : Precedence}
    {ts : Tokens} {o : Operator} (h : operatorAt? l fixity least ts = some o) :
    ts.next.list.length < ts.list.length := by
  refine Tokens.length_next_lt fun hfinish => ?_
  rw [operatorAt?, hfinish] at h
  cases h

/-! ### One level -/

section Level

variable {l : Language} {P : Expr → Prop} {Escapes : Fault → Prop} {n : Nat} {p q : ExprParser}
  {ts : Tokens}

/-- Operators go on with an expression without changing what is inside of it. -/
theorem inner_of_parseOperators {least : Precedence} {fuel : Nat} {left e : Expr} {rest : Tokens}
    (h : parseOperators l q least fuel left ts = .ok (e, rest)) (he : e.Inner P) :
    left.Inner P := by
  induction fuel generalizing left ts with
  | zero =>
    cases h
    exact he
  | succ fuel ih =>
    rw [parseOperators] at h
    simp only at h
    split at h
    · rename_i o _
      have hleft : (Expr.after o left ts.peek.position).Inner P := ih h
      exact hleft
    · split at h
      · cases h
        exact he
      · rename_i o _
        obtain ⟨⟨right, mid⟩, -, h⟩ := Except.bind_eq_ok_iff.mp h
        have hboth : (Expr.binary o left right ts.peek.position).Inner P := ih h
        exact hboth.1

theorem parseOperators_curbs (hpq : p.Curbs P Escapes n q) (least : Precedence) (fuel : Nat)
    {left : Expr} (hleft : left.Inner P) (hts : ts.list.length < n) :
    Curbs (Expr.Inner P) Escapes (ts.list.length + 1) (parseOperators l p least fuel left ts)
      (parseOperators l q least fuel left ts) := by
  -- a token is passed in each round, and the tree that was read so far stays inside of the next one
  induction fuel generalizing left ts with
  | zero => exact .ok hleft (Nat.lt_succ_self _)
  | succ fuel ih =>
    rw [parseOperators, parseOperators]
    simp only
    split
    · rename_i o hafter
      have hnext := length_next_lt_of_operatorAt? hafter
      have hoperand : (Expr.after o left ts.peek.position).Inner P := hleft
      exact (ih hoperand (by omega)).mono (by omega)
    · split
      · exact .ok hleft (Nat.lt_succ_self _)
      · rename_i o hbinary
        have hnext := length_next_lt_of_operatorAt? hbinary
        refine (hpq o.precedence.tighter ts.next (by omega)).bind
          (fun right rest hright hrest => ?_)
          fun right rest e _ he hfits => (inner_of_parseOperators he hfits).2
        have hboth : (Expr.binary o left right ts.peek.position).Inner P := ⟨hleft, hright⟩
        have hshort : rest.list.length < n := by omega
        exact (ih hboth hshort).mono (by omega)

theorem parseMoreArguments_curbs (hpq : p.Curbs P Escapes n q) (close : TokenKind)
    (hclose : close ≠ .finish) (start : Position) (fuel : Nat) (hts : ts.list.length < n) :
    Curbs (fun es => ∀ e ∈ es, P e) Escapes (ts.list.length + 1)
      (parseMoreArguments p close start fuel ts) (parseMoreArguments q close start fuel ts) := by
  induction fuel generalizing ts with
  | zero => exact .ok (by simp) (Nat.lt_succ_self _)
  | succ fuel ih =>
    rw [parseMoreArguments, parseMoreArguments]
    refine (hpq 0 ts hts).bind (fun argument rest hargument hrest => ?_)
      fun argument rest es rest' hes hfits => ?_
    · simp only
      split
      · rename_i hcomma
        have hnext := Tokens.length_next_lt_of_eq hcomma (by simp)
        have hshort : rest.next.list.length < n := by omega
        refine (ih hshort).bind (fun arguments last harguments hlast => ?_)
          fun arguments last es _ hes hfits => ?_
        · exact .ok (List.forall_mem_cons.2 ⟨hargument, harguments⟩)
            (Nat.lt_of_lt_of_le hlast (by omega))
        · cases hes
          exact (List.forall_mem_cons.1 hfits).2
      split
      · rename_i hkind
        have hnext := Tokens.length_next_lt_of_eq hkind hclose
        exact .ok (by simpa using hargument) (by omega)
      split
      · exact .error _
      · exact .error _
    · -- the argument is the first of those that were found
      simp only at hes
      split at hes
      · obtain ⟨⟨arguments, last⟩, -, hes⟩ := Except.bind_eq_ok_iff.mp hes
        cases hes
        exact (List.forall_mem_cons.1 hfits).1
      split at hes
      · cases hes
        exact (List.forall_mem_cons.1 hfits).1
      split at hes <;> cases hes

theorem parseArguments_curbs (hpq : p.Curbs P Escapes n q) (close : TokenKind)
    (hclose : close ≠ .finish) (start : Position) (hts : ts.list.length < n) :
    Curbs (fun es => ∀ e ∈ es, P e) Escapes (ts.list.length + 1)
      (parseArguments p close start ts) (parseArguments q close start ts) := by
  rw [parseArguments, parseArguments]
  split
  · rename_i hkind
    have hnext := Tokens.length_next_lt_of_eq hkind hclose
    exact .ok (by simp) (by omega)
  · exact parseMoreArguments_curbs hpq close hclose start _ hts

theorem parseLambda_curbs (hpq : p.Curbs P Escapes n q) (parameters : List Parameter)
    (position : Position) (hts : ts.list.length < n) :
    Curbs (Expr.Inner P) Escapes ts.list.length (parseLambda l p parameters position ts)
      (parseLambda l q parameters position ts) := by
  rw [parseLambda, parseLambda]
  rcases checkParameters l [] parameters with fault | checked
  · exact .error fault
  · refine (hpq 0 ts hts).bind (fun body rest hbody hrest => .ok hbody hrest)
      fun body rest e _ he hfits => ?_
    cases he
    exact hfits

theorem parsePrimary_curbs (hpq : p.Curbs P Escapes n q) (hts : ts.list.length < n + 1) :
    Curbs (Expr.Inner P) Escapes ts.list.length (parsePrimary l p ts) (parsePrimary l q ts) := by
  unfold parsePrimary
  simp only
  split
  · rename_i hkind
    exact .ok trivial (Tokens.length_next_lt_of_eq hkind (by simp))
  · rename_i hkind
    exact .ok trivial (Tokens.length_next_lt_of_eq hkind (by simp))
  · rename_i hkind
    have hname := Tokens.length_next_lt_of_eq hkind (by simp)
    split
    · rename_i harrow
      have hnext := Tokens.length_next_lt_of_eq harrow (by simp)
      exact (parseLambda_curbs hpq _ _ (by omega)).mono (by omega)
    · rename_i hparen
      have hnext := Tokens.length_next_lt_of_eq hparen (by simp)
      refine (parseArguments_curbs hpq .rightParen (by simp) _ (by omega)).bind
        (fun arguments rest harguments hrest => ?_) fun arguments rest e _ he hfits => ?_
      · exact .ok harguments (Nat.lt_of_lt_of_le hrest (by omega))
      · cases he
        exact hfits
    · rename_i hbracket
      have hnext := Tokens.length_next_lt_of_eq hbracket (by simp)
      refine (parseArguments_curbs hpq .rightBracket (by simp) _ (by omega)).bind
        (fun indexes rest hindexes hrest => ?_) fun indexes rest e _ he hfits => ?_
      · simp only
        split
        · exact .error _
        · exact .ok hindexes (by omega)
      · simp only at he
        split at he
        · cases he
        · cases he
          exact hfits
    · exact .ok trivial hname
  · rename_i hkind
    have hopen := Tokens.length_next_lt_of_eq hkind (by simp)
    split
    · rename_i parameters body hhead
      obtain ⟨passed, hlist, -⟩ := lambdaHead?_spec hhead
      have hbody : body.length ≤ ts.next.list.length := by
        rw [hlist, List.length_append]
        omega
      have hshort : (Tokens.mk body ts.finish).list.length < n := by
        show body.length < n
        omega
      exact (parseLambda_curbs hpq _ _ hshort).mono (show body.length ≤ ts.list.length by omega)
    · refine (parseArguments_curbs hpq .rightParen (by simp) _ (by omega)).bind
        (fun arguments rest harguments hrest => ?_) fun arguments rest e _ he hfits => ?_
      · simp only
        split
        · exact .ok (harguments _ List.mem_cons_self) (by omega)
        · exact .error _
      · simp only at he
        split at he
        · cases he
          exact List.forall_mem_singleton.2 hfits
        · cases he
  · exact .error _
  · exact .error _

theorem parseOperand_curbs (hpq : p.Curbs P Escapes n q) (hts : ts.list.length < n + 1) :
    Curbs (Expr.Inner P) Escapes ts.list.length (parseOperand l p ts) (parseOperand l q ts) := by
  rw [parseOperand, parseOperand]
  split
  · rename_i o hbefore
    split
    · exact parsePrimary_curbs hpq hts
    · have hnext := length_next_lt_of_operatorAt? hbefore
      refine (hpq o.precedence ts.next (by omega)).bind
        (fun operand rest hoperand hrest => .ok hoperand (Nat.lt_trans hrest hnext))
        fun operand rest e _ he hfits => ?_
      cases he
      exact hfits
  · exact parsePrimary_curbs hpq hts

/-- A level over a parser with a limit is the level over the parser without it, but for trees that
do not fit inside. -/
theorem parseLevel_curbs (hpq : p.Curbs P Escapes n q) :
    (parseLevel l p).Curbs (Expr.Inner P) Escapes (n + 1) (parseLevel l q) := by
  intro least ts hts
  refine (parseOperand_curbs hpq hts).bind (fun left rest hleft hrest => ?_)
    fun left rest e _ he hfits => inner_of_parseOperators he hfits
  exact (parseOperators_curbs hpq least _ hleft (by omega)).mono (by omega)

end Level

/-! ### The parser without a limit -/

section Free

variable {l : Language} {p q : ExprParser} {n : Nat}

/-- Whether two parsers do the same on fewer than `n` tokens. -/
def ExprParser.Agrees (n : Nat) (p q : ExprParser) : Prop :=
  p.Curbs (fun _ => True) (fun _ => False) n q

theorem ExprParser.Agrees.eq {least : Precedence} {ts : Tokens} (h : p.Agrees n q)
    (hts : ts.list.length < n) : p least ts = q least ts :=
  (h least ts hts).eq fun _ => id

theorem ExprParser.agrees_zero : p.Agrees 0 q :=
  fun _ _ hts => absurd hts (Nat.not_lt_zero _)

/-- A level passes a token, so levels over two parsers agree on one token more. -/
theorem ExprParser.Agrees.level (h : p.Agrees n q) :
    (parseLevel l p).Agrees (n + 1) (parseLevel l q) := by
  intro least ts hts
  refine (parseLevel_curbs h least ts hts).congr fun e => ?_
  exact iff_of_true (Expr.inner_of_forall (fun _ => trivial) e) trivial

/-- Levels that are not reached make no difference. -/
theorem parseOperation_agrees (l : Language) {levels more : Nat} (h : levels ≤ more) :
    (parseOperation l levels).Agrees levels (parseOperation l more) := by
  induction levels generalizing more with
  | zero => exact ExprParser.agrees_zero
  | succ levels ih =>
    obtain ⟨more, rfl⟩ : ∃ m, more = m + 1 := ⟨more - 1, by omega⟩
    rw [parseOperation_succ, parseOperation_succ]
    exact (ih (Nat.le_of_succ_le_succ h)).level

/-- The free parser is its own level below. -/
theorem parseFreely_eq_parseLevel (l : Language) :
    parseFreely l = parseLevel l (parseFreely l) := by
  funext least ts
  -- on fewer tokens as many levels as there are tokens here are enough
  have hbelow : (parseOperation l ts.list.length).Agrees ts.list.length (parseFreely l) := by
    intro least' ts' hts'
    have hagree := parseOperation_agrees l (Nat.succ_le_of_lt hts') least' ts' (Nat.lt_succ_self _)
    have heq := hagree.eq fun _ => id
    rw [parseFreely, heq]
    rwa [heq] at hagree
  exact hbelow.level.eq (Nat.lt_succ_self _)

/-- There is no other parser that is its own level below. -/
theorem eq_parseFreely (h : p = parseLevel l p) : p = parseFreely l := by
  -- every level passes a token, so `p` cannot tell the levels below from itself
  have hagree : ∀ levels, (parseOperation l levels).Agrees levels p := by
    intro levels
    induction levels with
    | zero => exact ExprParser.agrees_zero
    | succ levels ih =>
      rw [parseOperation_succ, h]
      exact ih.level
  funext least ts
  exact ((hagree (ts.list.length + 1)).eq (Nat.lt_succ_self _)).symm

/-- Whether a fault says that a text has too many levels. -/
def Fault.IsTooDeep (fault : Fault) : Prop := ∃ p, fault = .malformed .nestingTooDeep p

/-- With a limit on its levels the parser reads the trees for which it enters no more of them. -/
theorem parseOperation_curbs (l : Language) (levels n : Nat) :
    (parseOperation l levels).Curbs (fun e => e.nesting ≤ levels) Fault.IsTooDeep n
      (parseFreely l) := by
  induction levels generalizing n with
  | zero =>
    intro least ts _
    refine .escape ⟨_, rfl⟩ fun e _ _ => ?_
    have hpos := e.nesting_pos
    omega
  | succ levels ih =>
    intro least ts hts
    obtain ⟨n, rfl⟩ : ∃ m, n = m + 1 := ⟨n - 1, by omega⟩
    rw [parseFreely_eq_parseLevel, parseOperation_succ]
    exact (parseLevel_curbs (ih n) least ts hts).congr Expr.inner_nesting_iff

theorem parseOperation_eq_ok_iff {levels : Nat} {least : Precedence} {ts rest : Tokens} {e : Expr} :
    parseOperation l levels least ts = .ok (e, rest) ↔
      parseFreely l least ts = .ok (e, rest) ∧ e.nesting ≤ levels :=
  (parseOperation_curbs l levels (ts.list.length + 1) least ts (Nat.lt_succ_self _)).eq_ok_iff

/-- What stands between a text and its tree: its tokens are not none, and the parser takes all of
them. -/
theorem parseText_eq_ok_iff {text : String} {origin : Position} {e : Expr} :
    parseText l p text origin = .ok e ↔
      ∃ ts rest, tokenize l text origin = .ok ts ∧ ts.list ≠ [] ∧ p 0 ts = .ok (e, rest) ∧
        rest.peek.kind = .finish := by
  rw [parseText, Except.bind_eq_ok_iff]
  constructor
  · rintro ⟨ts, hts, h⟩
    split at h
    · cases h
    · rename_i hne
      obtain ⟨⟨e', rest⟩, hparse, h⟩ := Except.bind_eq_ok_iff.mp h
      simp only at h
      split at h
      · cases h
      · rename_i hfinish
        cases h
        exact ⟨ts, rest, hts, by simpa using hne, hparse, not_not.1 hfinish⟩
  · rintro ⟨ts, rest, hts, hne, hparse, hfinish⟩
    refine ⟨ts, hts, ?_⟩
    rw [if_neg (by simpa using hne), hparse, Except.ok_bind]
    exact if_neg (not_not.2 hfinish)

/-- The syntax tree of an expression is one that the limited parser reads, if it is not too deep. -/
theorem parseExpression_eq_bind (l : Language) (text : String) (origin : Position) :
    parseExpression l text origin =
      parseText l (parseOperation l maximalNesting) text origin >>= fun e =>
        match e.tooDeep? maximalNesting with
        | some position => .error (.malformed .nestingTooDeep position)
        | none => .ok e := by
  rw [parseExpression, parseText]
  rcases tokenize l text origin with fault | ts
  · rfl
  · simp only [Except.ok_bind]
    split
    · rfl
    · rcases parseOperation l maximalNesting 0 ts with fault | ⟨e, rest⟩
      · rfl
      · simp only [Except.ok_bind]
        split <;> rfl

theorem parseExpression_eq_ok_iff {text : String} {origin : Position} {e : Expr} :
    parseExpression l text origin = .ok e ↔
      parseText l (parseOperation l maximalNesting) text origin = .ok e ∧
        e.depth ≤ maximalNesting := by
  rw [parseExpression_eq_bind, Except.bind_eq_ok_iff]
  constructor
  · rintro ⟨e', he', h⟩
    split at h
    · cases h
    · rename_i hdeep
      cases h
      exact ⟨he', (Expr.tooDeep?_eq_none_iff e _).1 hdeep⟩
  · rintro ⟨he, hdepth⟩
    refine ⟨e, he, ?_⟩
    rw [(Expr.tooDeep?_eq_none_iff e _).2 hdepth]

/-- A limit at the end is enough: the limit inside refuses nothing that passes it. -/
theorem parseExpression_eq_ok_iff_freely {text : String} {origin : Position} {e : Expr} :
    parseExpression l text origin = .ok e ↔
      parseText l (parseFreely l) text origin = .ok e ∧ e.depth ≤ maximalNesting := by
  rw [parseExpression_eq_ok_iff, and_congr_left_iff]
  intro hdepth
  have hnesting := Nat.le_trans e.nesting_le_depth hdepth
  rw [parseText_eq_ok_iff, parseText_eq_ok_iff]
  simp only [parseOperation_eq_ok_iff, hnesting, and_true]

/-- What is a tree but for the limits is refused for its levels alone. -/
theorem parseExpression_of_lt_depth {text : String} {origin : Position} {e : Expr}
    (h : parseText l (parseFreely l) text origin = .ok e) (hdepth : maximalNesting < e.depth) :
    ∃ fault, parseExpression l text origin = .error fault ∧ fault.IsTooDeep := by
  obtain ⟨ts, rest, hts, hne, hparse, hfinish⟩ := parseText_eq_ok_iff.1 h
  by_cases hnesting : e.nesting ≤ maximalNesting
  · -- the parser reads the tree, and its levels are counted afterwards
    obtain ⟨position, hdeep⟩ : ∃ p, e.tooDeep? maximalNesting = some p := by
      rw [← Option.ne_none_iff_exists', Ne, Expr.tooDeep?_eq_none_iff]
      omega
    have hlimited := parseText_eq_ok_iff.2
      ⟨ts, rest, hts, hne, parseOperation_eq_ok_iff.2 ⟨hparse, hnesting⟩, hfinish⟩
    rw [parseExpression_eq_bind, hlimited, Except.ok_bind, hdeep]
    exact ⟨_, rfl, _, rfl⟩
  · obtain ⟨fault, hfault, hescape⟩ := (parseOperation_curbs l maximalNesting _ 0 ts
      (Nat.lt_succ_self _)).exists_escape hparse hnesting
    refine ⟨fault, ?_, hescape⟩
    rw [parseExpression, hts, Except.ok_bind, if_neg (by simpa using hne), hfault,
      Except.error_bind]

end Free

/-- The limits on nesting are exact. There is one parser without them, and its trees of 128 levels
at most are the expressions; the deeper ones are refused for being too deep. The parser enters no
more levels than are allowed, and reads the trees for which those are enough. -/
theorem nesting_guard_is_exact (l : Language) :
    (parseFreely l = parseLevel l (parseFreely l) ∧
      ∀ free, free = parseLevel l free → free = parseFreely l) ∧
    (∀ text origin e, parseExpression l text origin = .ok e ↔
      parseText l (parseFreely l) text origin = .ok e ∧ e.depth ≤ 128) ∧
    (∀ text origin e, parseText l (parseFreely l) text origin = .ok e → 128 < e.depth →
      ∃ p, parseExpression l text origin = .error (.malformed .nestingTooDeep p)) ∧
    (∀ levels, parseOperation l levels = (parseLevel l)^[levels]
      fun _ ts => .error (.malformed .nestingTooDeep ts.peek.position)) ∧
    (∀ levels least ts rest e, parseOperation l levels least ts = .ok (e, rest) ↔
      parseFreely l least ts = .ok (e, rest) ∧ e.nesting ≤ levels) := by
  refine ⟨⟨parseFreely_eq_parseLevel l, fun free => eq_parseFreely⟩,
    fun text origin e => parseExpression_eq_ok_iff_freely, fun text origin e h hdepth => ?_,
    fun levels => ?_, fun levels least ts rest e => parseOperation_eq_ok_iff⟩
  · obtain ⟨fault, hfault, p, rfl⟩ := parseExpression_of_lt_depth h hdepth
    exact ⟨p, hfault⟩
  · induction levels with
    | zero => rfl
    | succ levels ih => rw [parseOperation_succ, Function.iterate_succ_apply', ih]

end DocQuery
