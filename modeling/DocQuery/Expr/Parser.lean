/-
From tokens to syntax trees.

* `parseOperation` — an expression whose operators bind at least as tightly as a given one;
* `parseOperators`, `parseOperand`, `parseArguments` — its parts, over a parser for what they
  contain;
* `parseExpression` — the whole text of an expression.

Design notes: operators of one precedence group to the left, since the right operand of an operator
takes only operators that bind more tightly. At the highest precedence nothing binds more tightly,
so there they group to the right. The recursion is on the levels that are left: every operand inside
another expression takes one, and without a level no expression is read. The loops over operators
and arguments pass a token in each round, so the number of tokens is enough fuel.
-/
import DocQuery.Expr.Lexer
import DocQuery.Expr.Tree

namespace DocQuery

/-- A parser for expressions whose operators bind at least as tightly as a given precedence. -/
abbrev ExprParser := Precedence → Tokens → Except Fault (Expr × Tokens)

/-- The operator that the next token spells in a given place, if it binds at least as tightly as
`least`. -/
def operatorAt? (l : Language) (fixity : Fixity) (least : Precedence) (ts : Tokens) :
    Option Operator :=
  let found :=
    match ts.peek.kind with
    | .operator symbol => l.operator? symbol fixity
    | .name spelling => l.operator? spelling fixity
    | _ => none
  found.filter fun o => least ≤ o.precedence

/-- The operators that go on with the expression `left`. -/
def parseOperators (l : Language) (parse : ExprParser) (least : Precedence) :
    (fuel : Nat) → Expr → Tokens → Except Fault (Expr × Tokens)
  | 0, left, ts => .ok (left, ts)
  | fuel + 1, left, ts =>
    let position := ts.peek.position
    match operatorAt? l .after least ts with
    | some o => parseOperators l parse least fuel (.after o left position) ts.next
    | none =>
      match operatorAt? l .binary least ts with
      | none => .ok (left, ts)
      | some o => do
        let (right, rest) ← parse o.precedence.tighter ts.next
        parseOperators l parse least fuel (.binary o left right position) rest

/-- The arguments up to `close`, of which there is one at least. The bracket that they began with
belongs to what stands at `start`. -/
def parseMoreArguments (parse : ExprParser) (close : TokenKind) (start : Position) :
    (fuel : Nat) → Tokens → Except Fault (List Expr × Tokens)
  | 0, ts => .ok ([], ts)
  | fuel + 1, ts => do
    let (argument, rest) ← parse 0 ts
    let token := rest.peek
    if token.kind = .comma then
      let (arguments, rest) ← parseMoreArguments parse close start fuel rest.next
      .ok (argument :: arguments, rest)
    else if token.kind = close then .ok ([argument], rest.next)
    else if token.kind = .finish then .error (.malformed (.missingClosingToken close) start)
    else .error (.malformed (.argumentSeparatorExpected close token.kind) token.position)

/-- The arguments up to `close`. -/
def parseArguments (parse : ExprParser) (close : TokenKind) (start : Position) (ts : Tokens) :
    Except Fault (List Expr × Tokens) :=
  if ts.peek.kind = close then .ok ([], ts.next)
  else parseMoreArguments parse close start (ts.list.length + 1) ts

/-- Parameters with commas between them, the closing parenthesis and the arrow. -/
def parametersBefore? : List Token → Option (List Parameter × List Token)
  | ⟨.name name, position⟩ :: ⟨.comma, _⟩ :: ts => do
    let (parameters, rest) ← parametersBefore? ts
    some (⟨name, position⟩ :: parameters, rest)
  | ⟨.name name, position⟩ :: ⟨.rightParen, _⟩ :: ⟨.arrow, _⟩ :: ts =>
    some ([⟨name, position⟩], ts)
  | _ => none

/-- The rest of the head of a lambda, after its opening parenthesis. -/
def lambdaHead? : List Token → Option (List Parameter × List Token)
  | ⟨.rightParen, _⟩ :: ⟨.arrow, _⟩ :: ts => some ([], ts)
  | ts => parametersBefore? ts

/-- Parameters are no keywords and differ from one another. `earlier` are the names before them. -/
def checkParameters (l : Language) (earlier : List String) : List Parameter → Except Fault Unit
  | [] => .ok ()
  | p :: ps =>
    if l.isKeyword p.name then .error (.malformed (.keywordParameter p.name) p.position)
    else if earlier.contains p.name then
      .error (.malformed (.duplicateParameter p.name) p.position)
    else checkParameters l (p.name :: earlier) ps

/-- The body of a lambda whose head has been passed. -/
def parseLambda (l : Language) (parse : ExprParser) (parameters : List Parameter)
    (position : Position) (ts : Tokens) : Except Fault (Expr × Tokens) := do
  checkParameters l [] parameters
  let (body, rest) ← parse 0 ts
  .ok (.lambda parameters body position, rest)

/-- An expression without operators. -/
def parsePrimary (l : Language) (parse : ExprParser) (ts : Tokens) :
    Except Fault (Expr × Tokens) :=
  let position := ts.peek.position
  let rest := ts.next
  match ts.peek.kind with
  | .number digits => .ok (.number digits position, rest)
  | .text content => .ok (.text content position, rest)
  | .name spelling =>
    match rest.peek.kind with
    | .arrow => parseLambda l parse [⟨spelling, position⟩] position rest.next
    | .leftParen => do
      let (arguments, rest) ← parseArguments parse .rightParen position rest.next
      .ok (.call spelling arguments position, rest)
    | .leftBracket => do
      let (indexes, rest) ← parseArguments parse .rightBracket position rest.next
      if indexes.isEmpty then .error (.malformed .emptyIndex position)
      else .ok (.index spelling indexes position, rest)
    | _ => .ok (.name spelling position, rest)
  | .leftParen =>
    match lambdaHead? rest.list with
    | some (parameters, body) => parseLambda l parse parameters position ⟨body, ts.finish⟩
    | none => do
      let (arguments, rest) ← parseArguments parse .rightParen position rest
      match arguments with
      | [inner] => .ok (.group inner position, rest)
      | _ => .error (.malformed .groupOfOne position)
  | .finish => .error (.malformed .endOfExpression position)
  | other => .error (.malformed (.unexpectedToken other) position)

/-- Whether the next token is a name that a call, an index or a lambda begins with. -/
def beginsNamed (ts : Tokens) : Bool :=
  match ts.peek.kind, ts.next.peek.kind with
  | .name _, .leftParen | .name _, .leftBracket | .name _, .arrow => true
  | _, _ => false

/-- An operand: an operator and what it stands before, or an expression without operators. -/
def parseOperand (l : Language) (parse : ExprParser) (ts : Tokens) :
    Except Fault (Expr × Tokens) :=
  match operatorAt? l .before 0 ts with
  | some o =>
    if beginsNamed ts then parsePrimary l parse ts
    else do
      let (operand, rest) ← parse o.precedence ts.next
      .ok (.before o operand ts.peek.position, rest)
  | none => parsePrimary l parse ts

/-- An expression of at most `levels` levels whose operators bind at least as tightly as `least`. -/
def parseOperation (l : Language) : (levels : Nat) → ExprParser
  | 0, _, ts => .error (.malformed .nestingTooDeep ts.peek.position)
  | levels + 1, least, ts => do
    let parse := parseOperation l levels
    let (left, rest) ← parseOperand l parse ts
    parseOperators l parse least (rest.list.length + 1) left rest

/-- The syntax tree of a whole text, whose first character stands at `origin`. A chain of operators
grows a level with each of them without nesting the parser, so the levels are counted once more. -/
def parseExpression (l : Language) (text : String) (origin : Position) : Except Fault Expr := do
  let tokens ← tokenize l text origin
  if tokens.list.isEmpty then
    .error (.malformed .emptyExpression origin)
  else
    let (e, rest) ← parseOperation l maximalNesting 0 tokens
    if rest.peek.kind ≠ .finish then
      .error (.malformed (.unexpectedToken rest.peek.kind) rest.peek.position)
    else
      match e.tooDeep? maximalNesting with
      | some position => .error (.malformed .nestingTooDeep position)
      | none => .ok e

end DocQuery
