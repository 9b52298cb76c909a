/-
Expressions that are compiled fail only where they are malformed.

* `tokenize_isSound` — the tokens of a text are there, or a fault that is not one of the library;
* `ExprParser.EndsSoundly` — a parser that ends with a tree or with such a fault;
* `parseExpression_isSound`, `compileExpression_isSound` — parsing an expression does, and so does
  compiling it.

Design notes: the parts of the parser are sound over any parser for what they contain that is, so
the recursion on levels only puts them together. Whether a function gets the number of arguments
that it takes is settled here, so an evaluation never lacks one.
-/
import DocQuery.Formula.Compile
import DocQuery.Proofs.Source.Soundness

namespace DocQuery

open Outcome

/-! ### Tokens -/

theorem nextToken_isSound (l : Language) (symbols : List String) (first : Char) (c : Cursor) :
    IsSound (nextToken l symbols first c) := by
  unfold nextToken
  split
  · exact c.readNumber_isSound.value.bind fun _ => isSound_ok _
  · split
    · exact c.readQuoted_isSound.value.bind fun _ => isSound_ok _
    · split
      · exact c.readName_isSound.value.bind fun _ => isSound_ok _
      · split
        · exact isSound_ok _
        · split
          · exact isSound_ok _
          · split
            · exact isSound_ok _
            · exact isSound_malformed _ _

theorem tokensFrom_isSound (l : Language) (symbols : List String) (fuel : Nat) (c : Cursor) :
    IsSound (tokensFrom l symbols fuel c) := by
  induction fuel generalizing c with
  | zero => exact isSound_ok _
  | succ fuel ih =>
    rw [tokensFrom]
    simp only
    split
    · exact isSound_ok _
    · refine (nextToken_isSound l symbols _ _).bind fun ⟨kind, next⟩ => ?_
      exact (ih next).bind fun _ => isSound_ok _

theorem tokenize_isSound (l : Language) (text : String) (origin : Position) :
    IsSound (tokenize l text origin) :=
  tokensFrom_isSound l _ _ _

/-! ### Trees -/

/-- Whether a parser ends with a tree or with a fault that is not one of the library. -/
def ExprParser.EndsSoundly (parse : ExprParser) : Prop := ∀ least ts, Outcome.IsSound (parse least ts)

section Parts

variable {l : Language} {parse : ExprParser}

theorem parseOperators_isSound (hparse : parse.EndsSoundly) (least : Precedence) (fuel : Nat)
    (left : Expr) (ts : Tokens) : Outcome.IsSound (parseOperators l parse least fuel left ts) := by
  induction fuel generalizing left ts with
  | zero => exact isSound_ok _
  | succ fuel ih =>
    rw [parseOperators]
    simp only
    split
    · exact ih _ _
    · split
      · exact isSound_ok _
      · exact (hparse _ _).bind fun ⟨right, rest⟩ => ih _ _

theorem parseMoreArguments_isSound (hparse : parse.EndsSoundly) (close : TokenKind)
    (start : Position) (fuel : Nat) (ts : Tokens) :
    Outcome.IsSound (parseMoreArguments parse close start fuel ts) := by
  induction fuel generalizing ts with
  | zero => exact isSound_ok _
  | succ fuel ih =>
    rw [parseMoreArguments]
    refine (hparse 0 ts).bind fun ⟨argument, rest⟩ => ?_
    simp only
    split
    · exact (ih _).bind fun _ => isSound_ok _
    · split
      · exact isSound_ok _
      · split
        · exact isSound_malformed _ _
        · exact isSound_malformed _ _

theorem parseArguments_isSound (hparse : parse.EndsSoundly) (close : TokenKind) (start : Position)
    (ts : Tokens) : Outcome.IsSound (parseArguments parse close start ts) := by
  unfold parseArguments
  split
  · exact isSound_ok _
  · exact parseMoreArguments_isSound hparse close start _ ts

theorem checkParameters_isSound (l : Language) (earlier : List String)
    (parameters : List Parameter) :
    Outcome.IsSound (checkParameters l earlier parameters) := by
  induction parameters generalizing earlier with
  | nil => exact isSound_ok _
  | cons p ps ih =>
    rw [checkParameters]
    split
    · exact isSound_malformed _ _
    · split
      · exact isSound_malformed _ _
      · exact ih _

theorem parseLambda_isSound (hparse : parse.EndsSoundly) (parameters : List Parameter)
    (position : Position) (ts : Tokens) :
    Outcome.IsSound (parseLambda l parse parameters position ts) := by
  refine (checkParameters_isSound l [] parameters).bind fun _ => ?_
  exact (hparse 0 ts).bind fun _ => isSound_ok _

theorem parsePrimary_isSound (hparse : parse.EndsSoundly) (ts : Tokens) :
    Outcome.IsSound (parsePrimary l parse ts) := by
  unfold parsePrimary
  simp only
  split
  · exact isSound_ok _
  · exact isSound_ok _
  · -- a name goes on as a lambda, a call or an index, or is alone
    split
    · exact parseLambda_isSound hparse _ _ _
    · exact (parseArguments_isSound hparse _ _ _).bind fun _ => isSound_ok _
    · refine (parseArguments_isSound hparse _ _ _).bind fun ⟨indexes, rest⟩ => ?_
      simp only
      split
      · exact isSound_malformed _ _
      · exact isSound_ok _
    · exact isSound_ok _
  · split
    · exact parseLambda_isSound hparse _ _ _
    · refine (parseArguments_isSound hparse _ _ _).bind fun ⟨arguments, rest⟩ => ?_
      simp only
      split
      · exact isSound_ok _
      · exact isSound_malformed _ _
  · exact isSound_malformed _ _
  · exact isSound_malformed _ _

theorem parseOperand_isSound (hparse : parse.EndsSoundly) (ts : Tokens) :
    Outcome.IsSound (parseOperand l parse ts) := by
  unfold parseOperand
  split
  · split
    · exact parsePrimary_isSound hparse ts
    · exact (hparse _ _).bind fun _ => isSound_ok _
  · exact parsePrimary_isSound hparse ts

end Parts

theorem parseOperation_isSound (l : Language) (levels : Nat) :
    (parseOperation l levels).EndsSoundly := by
  induction levels with
  | zero =>
    intro least ts
    exact isSound_malformed _ _
  | succ levels ih =>
    intro least ts
    rw [parseOperation]
    refine (parseOperand_isSound ih ts).bind fun ⟨left, rest⟩ => ?_
    exact parseOperators_isSound ih least _ left rest

/-- Parsing an expression ends with its tree, or with a fault that is not one of the library. -/
theorem parseExpression_isSound (l : Language) (text : String) (origin : Position) :
    IsSound (parseExpression l text origin) := by
  refine (tokenize_isSound l text origin).bind fun tokens => ?_
  split
  · exact isSound_malformed _ _
  · refine (parseOperation_isSound l maximalNesting 0 tokens).bind fun ⟨e, rest⟩ => ?_
    simp only
    split
    · exact isSound_malformed _ _
    · split
      · exact isSound_malformed _ _
      · exact isSound_ok _

/-! ### Formulas -/

namespace Naming

variable (s : Naming) (p : Position)

theorem compileNumber_isSound (digits : String) : IsSound (s.compileNumber digits p) := by
  unfold compileNumber
  split
  · exact isSound_malformed _ _
  · split
    · exact isSound_malformed _ _
    · split
      · exact isSound_ok _
      · exact isSound_malformed _ _

theorem compileText_isSound (content : String) : IsSound (s.compileText content p) := by
  unfold compileText
  split
  · exact isSound_ok _
  · exact isSound_ok _
  · exact isSound_malformed _ _

theorem buildCall_isSound (name : String) (meaning : FunctionMeaning) (arguments : List Formula) :
    IsSound (buildCall name p meaning arguments) := by
  unfold buildCall
  split
  · exact isSound_ok _
  · exact isSound_malformed _ _

theorem unknownFunction_isSound {α : Type} (name : String) :
    IsSound (.error (s.unknownFunction name p) : Except Fault α) := by
  unfold unknownFunction
  split
  · exact isSound_malformed _ _
  · exact isSound_malformed _ _

end Naming

theorem sealChain_isSound {chain : Except Fault Chain} (e : Expr) (h : IsSound chain) :
    IsSound (sealChain e chain) := by
  unfold sealChain
  split
  · exact isSound_malformed _ _
  · exact h.map _

mutual

theorem link_isSound (s : Naming) (before : Option Chain) (e : Expr) :
    IsSound (link s before e) := by
  match e with
  | .name spelling p =>
    cases before with
    | none => exact isSound_ok _
    | some chain => exact isSound_ok _
  | .text content p =>
    cases before with
    | none => exact (s.compileText_isSound p content).map _
    | some chain => exact isSound_ok _
  | .number digits p =>
    cases before with
    | none => exact (s.compileNumber_isSound p digits).map _
    | some chain => exact isSound_malformed _ _
  | .index name indexes p =>
    cases before with
    | none => exact (compileAll_isSound s indexes).bind fun _ => isSound_ok _
    | some chain => exact (compileAll_isSound s indexes).bind fun _ => isSound_ok _
  | .group inner p =>
    cases before with
    | none => exact (sealChain_isSound inner (link_isSound s none inner)).map _
    | some chain => exact isSound_malformed _ _
  | .lambda parameters body p =>
    cases before with
    | none => exact isSound_malformed _ _
    | some chain => exact isSound_malformed _ _
  | .before o operand p =>
    have hoperand := sealChain_isSound operand (link_isSound s none operand)
    rw [link.eq_def]
    simp only
    split
    · exact link_isSound s before operand
    · split
      · exact isSound_malformed _ _
      · split
        · exact isSound_malformed _ _
        · exact hoperand.bind fun _ => isSound_ok _
  | .after o operand p =>
    have hoperand := sealChain_isSound operand (link_isSound s none operand)
    rw [link.eq_def]
    simp only
    split
    · exact link_isSound s before operand
    · split
      · exact isSound_malformed _ _
      · split
        · exact isSound_malformed _ _
        · exact hoperand.bind fun _ => isSound_ok _
  | .binary o left right p =>
    have hleft := sealChain_isSound left (link_isSound s none left)
    have hright := sealChain_isSound right (link_isSound s none right)
    rw [link.eq_def]
    simp only
    split
    · exact (link_isSound s before left).bind fun chain => link_isSound s (some chain) right
    · split
      · exact isSound_malformed _ _
      · split
        · exact isSound_malformed _ _
        · exact hleft.bind fun _ => hright.bind fun _ => isSound_ok _
  | .call name arguments p =>
    have hall := compileAll_isSound s arguments
    cases before with
    | none =>
      rw [link.eq_def]
      simp only
      split
      · exact s.unknownFunction_isSound p name
      · -- an aggregate takes a collection, and a lambda behind it
        split
        · split
          · rename_i collection _
            have hcollection := sealChain_isSound collection (link_isSound s none collection)
            exact hcollection.bind fun _ => isSound_ok _
          · rename_i collection lambda _
            have hcollection := sealChain_isSound collection (link_isSound s none collection)
            exact hcollection.bind fun _ =>
              (compileLambda_isSound s name lambda).bind fun _ => isSound_ok _
          · exact isSound_malformed _ _
        · exact isSound_malformed _ _
      · split
        · exact hall.bind fun _ => (Naming.buildCall_isSound p name _ _).map _
        · exact s.unknownFunction_isSound p name
    | some chain =>
      rw [link.eq_def]
      simp only
      split
      · exact isSound_malformed _ _
      · split
        · exact (compileLambda_isSound s name _).bind fun _ => isSound_ok _
        · exact (compileLambda_isSound s name _).bind fun _ => isSound_ok _
        · exact isSound_ok _
        · exact isSound_ok _
        · exact hall.bind fun _ => isSound_ok _
        · exact isSound_ok _
        · exact isSound_malformed _ _
        · exact isSound_malformed _ _

theorem compileLambda_isSound (s : Naming) (function : String) (e : Expr) :
    IsSound (compileLambda s function e) := by
  match e with
  | .lambda parameters body p =>
    rw [compileLambda]
    split
    · exact isSound_malformed _ _
    · exact sealChain_isSound body (link_isSound _ none body)
  | .name .. | .number .. | .text .. | .binary .. | .before .. | .after .. | .group .. | .call ..
  | .index .. => exact isSound_malformed _ _

theorem compileAll_isSound (s : Naming) (es : List Expr) : IsSound (compileAll s es) := by
  match es with
  | [] => exact isSound_ok _
  | e :: es =>
    exact (sealChain_isSound e (link_isSound s none e)).bind fun _ =>
      (compileAll_isSound s es).bind fun _ => isSound_ok _

end

/-- Compiling the text of an expression ends with its formula, or with a fault that is not one of
the library. -/
theorem compileExpression_isSound (d : Dialect) (text : String) (origin : Position) :
    IsSound (compileExpression d text origin) := by
  refine (parseExpression_isSound d.language text origin).bind fun e => ?_
  exact sealChain_isSound e (link_isSound _ none e)

end DocQuery
