/-
The operators of syntax trees.

* `Expr.IsOver` — a tree all of whose operators belong to a language, each where it stands;
* `parseExpression_over` — the trees of texts are such trees.

Design notes: the fixity of an operator is nowhere checked after it was looked up, so it is followed
through the parser once, for all fixities together.
-/
import DocQuery.Proofs.Expr.Writing

namespace DocQuery

/-- Whether a language has an operator in the place `fixity`. -/
def Language.Has (l : Language) (fixity : Fixity) (o : Operator) : Prop :=
  o ∈ l.operators ∧ o.fixity = fixity

theorem Language.has_of_operatorAt? {l : Language} {fixity : Fixity} {least : Precedence}
    {ts : Tokens} {o : Operator} (h : operatorAt? l fixity least ts = some o) : l.Has fixity o := by
  have hfound {name : String} (h : l.operator? name fixity = some o) : l.Has fixity o := by
    have hspelled := List.find?_some h
    rw [Bool.and_eq_true, beq_iff_eq, beq_iff_eq] at hspelled
    exact ⟨List.mem_of_find?_eq_some h, hspelled.2⟩
  unfold operatorAt? at h
  obtain ⟨h, -⟩ := Option.filter_eq_some_iff.mp h
  split at h
  · exact hfound h
  · exact hfound h
  · cases h

/-- Whether a language has all operators of a tree, each where it stands. -/
inductive Expr.IsOver (l : Language) : Expr → Prop
  | name (n : String) (p : Position) : IsOver l (.name n p)
  | number (digits : String) (p : Position) : IsOver l (.number digits p)
  | text (content : String) (p : Position) : IsOver l (.text content p)
  | binary {o : Operator} {left right : Expr} (p : Position) : l.Has .binary o →
    IsOver l left → IsOver l right → IsOver l (.binary o left right p)
  | before {o : Operator} {operand : Expr} (p : Position) : l.Has .before o → IsOver l operand →
    IsOver l (.before o operand p)
  | after {o : Operator} {operand : Expr} (p : Position) : l.Has .after o → IsOver l operand →
    IsOver l (.after o operand p)
  | group {inner : Expr} (p : Position) : IsOver l inner → IsOver l (.group inner p)
  | call {arguments : List Expr} (n : String) (p : Position) : (∀ e ∈ arguments, IsOver l e) →
    IsOver l (.call n arguments p)
  | index {indexes : List Expr} (n : String) (p : Position) : (∀ e ∈ indexes, IsOver l e) →
    IsOver l (.index n indexes p)
  | lambda {body : Expr} (parameters : List Parameter) (p : Position) : IsOver l body →
    IsOver l (.lambda parameters body p)

/-- A parser that builds trees with the operators of a language and no others. -/
def BuildsOver (l : Language) (parse : ExprParser) : Prop :=
  ∀ ⦃least : Precedence⦄ ⦃ts rest : Tokens⦄ ⦃e : Expr⦄,
    parse least ts = .ok (e, rest) → e.IsOver l

section Parser

variable {l : Language} {parse : ExprParser} {ts rest : Tokens} {position start : Position}
  {close : TokenKind} {fuel : Nat} {e : Expr} {es : List Expr} {parameters : List Parameter}

theorem parseOperators_over {least : Precedence} {left : Expr} (hparse : BuildsOver l parse)
    (hleft : left.IsOver l) (h : parseOperators l parse least fuel left ts = .ok (e, rest)) :
    e.IsOver l := by
  induction fuel generalizing left ts with
  | zero =>
    cases h
    exact hleft
  | succ fuel ih =>
    rw [parseOperators] at h
    simp only at h
    split at h
    · rename_i hafter
      exact ih (.after _ (Language.has_of_operatorAt? hafter) hleft) h
    · split at h
      · cases h
        exact hleft
      · rename_i hbinary
        obtain ⟨⟨right, mid⟩, hright, h⟩ := Except.bind_eq_ok_iff.mp h
        exact ih (.binary _ (Language.has_of_operatorAt? hbinary) hleft (hparse hright)) h

theorem parseMoreArguments_over (hparse : BuildsOver l parse)
    (h : parseMoreArguments parse close start fuel ts = .ok (es, rest)) : ∀ e ∈ es, e.IsOver l := by
  induction fuel generalizing ts es with
  | zero =>
    cases h
    exact fun e he => absurd he List.not_mem_nil
  | succ fuel ih =>
    rw [parseMoreArguments] at h
    obtain ⟨⟨argument, mid⟩, hargument, h⟩ := Except.bind_eq_ok_iff.mp h
    simp only at h
    split at h
    · obtain ⟨⟨arguments, last⟩, hmore, h⟩ := Except.bind_eq_ok_iff.mp h
      cases h
      exact List.forall_mem_cons.2 ⟨hparse hargument, ih hmore⟩
    · split at h
      · cases h
        exact List.forall_mem_singleton.2 (hparse hargument)
      · split at h <;> cases h

theorem parseArguments_over (hparse : BuildsOver l parse)
    (h : parseArguments parse close start ts = .ok (es, rest)) : ∀ e ∈ es, e.IsOver l := by
  unfold parseArguments at h
  split at h
  · cases h
    exact fun e he => absurd he List.not_mem_nil
  · exact parseMoreArguments_over hparse h

theorem parseLambda_over (hparse : BuildsOver l parse)
    (h : parseLambda l parse parameters position ts = .ok (e, rest)) : e.IsOver l := by
  obtain ⟨-, -, h⟩ := Except.bind_eq_ok_iff.mp h
  obtain ⟨⟨body, last⟩, hbody, h⟩ := Except.bind_eq_ok_iff.mp h
  cases h
  exact .lambda _ _ (hparse hbody)

theorem parsePrimary_over (hparse : BuildsOver l parse)
    (h : parsePrimary l parse ts = .ok (e, rest)) : e.IsOver l := by
  -- a number, a text, what begins with a name, or what stands in parentheses
  unfold parsePrimary at h
  simp only at h
  split at h
  · cases h
    exact .number _ _
  · cases h
    exact .text _ _
  · split at h
    · exact parseLambda_over hparse h
    · obtain ⟨⟨arguments, last⟩, harguments, h⟩ := Except.bind_eq_ok_iff.mp h
      cases h
      exact .call _ _ (parseArguments_over hparse harguments)
    · obtain ⟨⟨indexes, last⟩, hindexes, h⟩ := Except.bind_eq_ok_iff.mp h
      simp only at h
      split at h
      · cases h
      · cases h
        exact .index _ _ (parseArguments_over hparse hindexes)
    · cases h
      exact .name _ _
  · split at h
    · exact parseLambda_over hparse h
    · obtain ⟨⟨arguments, last⟩, harguments, h⟩ := Except.bind_eq_ok_iff.mp h
      simp only at h
      split at h
      · cases h
        exact .group _ (parseArguments_over hparse harguments _ List.mem_cons_self)
      · cases h
  · cases h
  · cases h

theorem parseOperand_over (hparse : BuildsOver l parse)
    (h : parseOperand l parse ts = .ok (e, rest)) : e.IsOver l := by
  unfold parseOperand at h
  split at h
  · rename_i hbefore
    split at h
    · exact parsePrimary_over hparse h
    · obtain ⟨⟨operand, last⟩, hoperand, h⟩ := Except.bind_eq_ok_iff.mp h
      cases h
      exact .before _ (Language.has_of_operatorAt? hbefore) (hparse hoperand)
  · exact parsePrimary_over hparse h

end Parser

theorem parseOperation_over (l : Language) (levels : Nat) :
    BuildsOver l (parseOperation l levels) := by
  induction levels with
  | zero =>
    intro least ts rest e h
    cases h
  | succ levels ih =>
    intro least ts rest e h
    rw [parseOperation] at h
    obtain ⟨⟨left, mid⟩, hleft, h⟩ := Except.bind_eq_ok_iff.mp h
    exact parseOperators_over ih (parseOperand_over ih hleft) h

/-- The tree of a text has the operators of the language and no others. -/
theorem parseExpression_over {l : Language} {text : String} {origin : Position} {e : Expr}
    (h : parseExpression l text origin = .ok e) : e.IsOver l := by
  unfold parseExpression at h
  obtain ⟨ts, -, h⟩ := Except.bind_eq_ok_iff.mp h
  split at h
  · cases h
  · obtain ⟨⟨e', rest⟩, hparse, h⟩ := Except.bind_eq_ok_iff.mp h
    simp only at h
    split at h
    · cases h
    · split at h
      · cases h
      · cases h
        exact parseOperation_over l maximalNesting hparse

end DocQuery
