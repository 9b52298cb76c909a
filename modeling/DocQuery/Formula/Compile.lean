/-
From syntax trees to formulas.

* `Naming` — the dialect, and the parameters of the lambdas around an expression;
* `Chain` — the beginning of a chain of names, on which the names after a point build;
* `link` — the chain that an expression makes of the one before it;
* `compile`, `compileExpression` — the formula of a syntax tree and of a text.

Design notes: the points of a chain group to the left, so the chain before an expression is always
complete when the expression is reached. An expression that is no part of a chain is the first and
only part of its own. Every fault shows at the first part that is wrong, from left to right; the
number of arguments of a function is settled before or after the arguments themselves, as its kind
demands.
-/
import DocQuery.Dialect.Vocabulary
import DocQuery.Expr.Parser

namespace DocQuery

/-- What the names of an expression can refer to. -/
structure Naming where
  dialect : Dialect
  /-- the parameters of the lambdas around the expression, the innermost first -/
  lambdas : List (List String)

/-- The parameter that a name refers to, among those of the given lambdas. -/
def parameterNamed? (name : String) : List (List String) → Option Start
  | [] => none
  | parameters :: outer =>
    match parameters.idxOf? name with
    | some 0 => some (.parameter outer.length name .item)
    | some _ => some (.parameter outer.length name .index)
    | none => parameterNamed? name outer

namespace Naming

/-- The words that the expression is written in. -/
def vocabulary (s : Naming) : Vocabulary := s.dialect.vocabulary

/-- What a name refers to at the beginning of a lookup. -/
def startOf (s : Naming) (name : String) : Start :=
  (parameterNamed? name s.lambdas).getD (.property name .all)

/-- The names inside a lambda. -/
def enter (s : Naming) (parameters : List String) : Naming :=
  { s with lambdas := parameters :: s.lambdas }

end Naming

/-- The words that settle where a name is searched. -/
inductive Qualifier where
  | this
  | parent
deriving DecidableEq, Repr

namespace Qualifier

/-- The qualifier that a name is. -/
def ofName? (name : String) : Option Qualifier :=
  if name = "this" then some .this else if name = "parent" then some .parent else none

/-- Where the next name is searched. -/
def scope : Qualifier → Scope
  | this => .own
  | parent => .inherited

/-- What a qualifier is by itself. -/
def start : Qualifier → Start
  | this => .this
  | parent => .parent

end Qualifier

/-- The beginning of a chain of names. -/
inductive Chain where
  /-- a qualifier, before the name that it qualifies -/
  | qualifier (qualifier : Qualifier) (position : Position)
  | lookup (start : Start) (steps : List Step) (position : Position)
  | follow (base : Formula) (steps : List Step) (position : Position)

namespace Chain

/-- A chain with more steps. -/
def extend (more : List Step) : Chain → Chain
  | qualifier q p => lookup q.start more p
  | lookup start steps p => lookup start (steps ++ more) p
  | follow base steps p => follow base (steps ++ more) p

/-- A chain with a name and the steps at that name. -/
def member (name : String) (more : List Step) : Chain → Chain
  | qualifier q p => lookup (.property name q.scope) more p
  | c => c.extend (.member name :: more)

/-- The formula of a chain. -/
def formula : Chain → Formula
  | qualifier q p => .lookup q.start [] p
  | lookup start steps p => .lookup start steps p
  | follow base [] _ => base
  | follow base steps p => .follow base steps p

end Chain

/-- The name of the operator of chains. -/
def pathOperator : String := "."

/-- A formula that has been built from function name and arguments, if their number is right. -/
def FunctionMeaning.build? (position : Position) : FunctionMeaning → List Formula → Option Formula
  | unary f, [a] => some (.apply f a position)
  | test t, [a, b] => some (.test t a b position)
  | concatenate, a :: b :: rest => some (.concatenate (a :: b :: rest) position)
  | choose, [a, b, c] => some (.choose a b c position)
  | now, [] => some (.now position)
  | operation o, as => some (.operation o as position)
  | _, _ => none

/-- A formula that has been built from an operator and its operands. -/
def BinaryMeaning.build (position : Position) (left right : Formula) : BinaryMeaning → Formula
  | operation o => .binary o left right position
  | both => .both left right position
  | either => .either left right position
  | fallback => .fallback left right position
  | custom o => .operation o [left, right] position

/-- A formula that has been built from an operator and its operand. -/
def OperandMeaning.build (position : Position) (operand : Formula) : OperandMeaning → Formula
  | apply f => .apply f operand position
  | assert => .assert operand position

/-- Whether a word is spelled as a hexadecimal number, with an exponent, or neither. -/
def formatOf (digits : String) : NumberFormat :=
  let cs := digits.toList.dropWhile (· == '-')
  if ['0', 'x'].isPrefixOf cs || ['0', 'X'].isPrefixOf cs then .hexadecimal
  else if cs.any fun c => c == 'e' || c == 'E' then .exponent
  else .decimal

/-- The fault of a wrong number of arguments. -/
def wrongArity (name : String) (arity : Arity) (given : Nat) (position : Position) : Fault :=
  .malformed (.wrongArity name arity given) position

namespace Naming

/-- The chain that begins with a name. -/
def beginName (s : Naming) (name : String) (position : Position) : Chain :=
  match Qualifier.ofName? name with
  | some q => .qualifier q position
  | none =>
    match s.vocabulary.constants.lookup name with
    | some v => .follow (.constant v position) [] position
    | none => .lookup (s.startOf name) [] position

/-- The value of a number as it is written. -/
def compileNumber (s : Naming) (digits : String) (position : Position) : Except Fault Formula :=
  if s.vocabulary.refusedNumbers.contains digits then
    .error (.malformed (.unsupportedNumber digits) position)
  else if !s.dialect.language.admits (formatOf digits) then
    .error (.malformed (.disabledNumberFormat digits) position)
  else
    match Number.readNumber? digits.toList with
    | some x => .ok (.constant (.number x) position)
    | none => .error (.malformed (.invalidNumber digits) position)

/-- The value of a quoted text. -/
def compileText (s : Naming) (content : String) (position : Position) : Except Fault Formula :=
  match s.vocabulary.texts.lookup content with
  | none => .ok (.constant (.text content) position)
  | some (some v) => .ok (.constant v position)
  | some none => .error (.malformed (.unsupportedText content) position)

/-- The fault of a function that is not known. -/
def unknownFunction (s : Naming) (name : String) (position : Position) : Fault :=
  if (s.vocabulary.selectors.lookup name).isSome then
    .malformed (.selectorWithoutPath name) position
  else
    .malformed (.unknownFunction name) position

/-- The call of a function with finished arguments. -/
def buildCall (name : String) (position : Position) (meaning : FunctionMeaning)
    (arguments : List Formula) : Except Fault Formula :=
  match meaning.build? position arguments with
  | some f => .ok f
  | none => .error (wrongArity name meaning.arity arguments.length position)

end Naming

/-- Whether an operator of chains has only one operand. Such an operator joins the chain around it,
and means nothing outside of one. -/
def Expr.isLoosePath : Expr → Bool
  | .before o _ _ | .after o _ _ => o.name == pathOperator
  | _ => false

/-- The formula of an expression that is no part of a longer chain, from its own chain. -/
def sealChain (e : Expr) (chain : Except Fault Chain) : Except Fault Formula :=
  if e.isLoosePath then .error (.malformed (.unsupportedOperator pathOperator) e.position)
  else chain.map Chain.formula

/-- A chain that consists of one formula at `position`. -/
def Chain.ofFormula (position : Position) (f : Formula) : Chain := .follow f [] position

/-- The fault of something after a point that is no name and no selector. -/
def misplaced (position : Position) : Fault := .malformed .pathElementExpected position

mutual

/-- The chain that an expression makes of the chain before it, if there is one. -/
def link (s : Naming) (before : Option Chain) : Expr → Except Fault Chain
  | .name spelling p =>
    match before with
    | none => .ok (s.beginName spelling p)
    | some chain => .ok (chain.member spelling [])
  | .text content p =>
    match before with
    | none => (s.compileText content p).map (.ofFormula p)
    | some chain => .ok (chain.member content [])
  | .number digits p =>
    match before with
    | none => (s.compileNumber digits p).map (.ofFormula p)
    | some _ => .error (misplaced p)
  | .index name indexes p => do
    let fs ← compileAll s indexes
    match before with
    | none => .ok (.lookup (s.startOf name) [.index fs] p)
    | some chain => .ok (chain.member name [.index fs])
  | .group inner p =>
    match before with
    | none => (sealChain inner (link s none inner)).map (.ofFormula p)
    | some _ => .error (misplaced p)
  | .lambda _ _ p =>
    match before with
    | none => .error (.malformed .strayLambda p)
    | some _ => .error (misplaced p)
  | .before o operand p =>
    if o.name = pathOperator then link s before operand
    else
      match before with
      | some _ => .error (misplaced p)
      | none =>
        match s.vocabulary.before.lookup o.name with
        | none => .error (.malformed (.unsupportedOperator o.name) p)
        | some meaning => do
          let f ← sealChain operand (link s none operand)
          .ok (.ofFormula p (meaning.build p f))
  | .after o operand p =>
    if o.name = pathOperator then link s before operand
    else
      match before with
      | some _ => .error (misplaced p)
      | none =>
        match s.vocabulary.after.lookup o.name with
        | none => .error (.malformed (.unsupportedOperator o.name) p)
        | some meaning => do
          let f ← sealChain operand (link s none operand)
          .ok (.ofFormula p (meaning.build p f))
  | .binary o left right p =>
    if o.name = pathOperator then do
      let chain ← link s before left
      link s (some chain) right
    else
      match before with
      | some _ => .error (misplaced p)
      | none =>
        match s.vocabulary.binary.lookup o.name with
        | none => .error (.malformed (.unsupportedOperator o.name) p)
        | some meaning => do
          let f ← sealChain left (link s none left)
          let g ← sealChain right (link s none right)
          .ok (.ofFormula p (meaning.build p f g))
  | .call name arguments p =>
    match before with
    | none =>
      match s.vocabulary.functions.lookup name with
      | none => .error (s.unknownFunction name p)
      | some (.aggregate a) =>
        if a.arity.admits arguments.length then
          match arguments with
          | [collection] => do
            let f ← sealChain collection (link s none collection)
            .ok (.ofFormula p (.aggregate a f p))
          | [collection, lambda] => do
            let f ← sealChain collection (link s none collection)
            let body ← compileLambda s name lambda
            .ok (.ofFormula p (.aggregateBy a f s.lambdas.length body p))
          | _ => .error (wrongArity name a.arity arguments.length p)
        else
          .error (wrongArity name a.arity arguments.length p)
      | some meaning =>
        if meaning.isKnownWith arguments.length then do
          let fs ← compileAll s arguments
          (Naming.buildCall name p meaning fs).map (.ofFormula p)
        else
          .error (s.unknownFunction name p)
    | some chain =>
      match s.vocabulary.selectors.lookup name with
      | none => .error (.malformed (.unknownSelector name) p)
      | some meaning =>
        match meaning, arguments with
        | .lambda selector, [lambda] | .optionalLambda selector _, [lambda] => do
          let body ← compileLambda s name lambda
          .ok (chain.extend [.through selector s.lambdas.length body p])
        | .optionalLambda _ arrangement, [] | .arrangement arrangement, [] =>
          .ok (chain.extend [.arrange arrangement p])
        | .positions, first :: rest => do
          let fs ← compileAll s (first :: rest)
          .ok (chain.extend [.at fs p])
        | .custom select, [] => .ok (chain.extend [.arrange (.custom name select) p])
        | .custom _, _ => .error (.malformed (.unknownSelector name) p)
        | _, _ => .error (wrongArity name meaning.arity arguments.length p)

/-- The formula of the body of a lambda that `function` gets. -/
def compileLambda (s : Naming) (function : String) : Expr → Except Fault Formula
  | .lambda parameters body p =>
    if parameters.isEmpty || parameters.length > 2 then
      .error (.malformed (.lambdaParameters function) p)
    else
      let inner := s.enter (parameters.map (·.name))
      sealChain body (link inner none body)
  | e => .error (.malformed (.lambdaExpected function) e.position)

/-- The formulas of several expressions. -/
def compileAll (s : Naming) : List Expr → Except Fault (List Formula)
  | [] => .ok []
  | e :: es => do
    let f ← sealChain e (link s none e)
    let fs ← compileAll s es
    .ok (f :: fs)

end

/-- The formula of a syntax tree. -/
def compile (s : Naming) (e : Expr) : Except Fault Formula :=
  sealChain e (link s none e)

/-- The formula of the text of an expression, whose first character stands at `origin`. -/
def compileExpression (d : Dialect) (text : String) (origin : Position) : Except Fault Formula := do
  let e ← parseExpression d.language text origin
  compile ⟨d, []⟩ e

end DocQuery
