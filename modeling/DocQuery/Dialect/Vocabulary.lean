/-
The words of a dialect and what they mean.

* `FunctionMeaning`, `SelectorMeaning`, `BinaryMeaning`, `OperandMeaning` — the meanings that names
  of functions, of selectors and of operators can have;
* `Vocabulary` — tables of names and their meanings;
* `Vocabulary.standard` — the standard vocabulary;
* `Dialect` — a language together with a vocabulary for it.

Design notes: an operator of a language has no meaning by itself. One that the vocabulary does not
know can be parsed, but an expression with it has no formula.
-/
import DocQuery.Expr.Language
import DocQuery.Formula.Tree

namespace DocQuery

/-- What a name before parentheses can mean. -/
inductive FunctionMeaning where
  | aggregate (aggregate : Aggregate)
  | unary (function : UnaryFunction)
  | test (test : TextTest)
  | concatenate
  | choose
  | now
  /-- a function that is known only with the number of arguments that it has -/
  | operation (operation : Operation)

/-- The numbers of arguments that a function takes. -/
def FunctionMeaning.arity : FunctionMeaning → Arity
  | aggregate a => a.arity
  | unary _ => ⟨1, some 1⟩
  | test _ => ⟨2, some 2⟩
  | concatenate => ⟨2, none⟩
  | choose => ⟨3, some 3⟩
  | now => ⟨0, some 0⟩
  | operation o => ⟨o.arity, some o.arity⟩

/-- Whether a function is known at all with `given` arguments. -/
def FunctionMeaning.isKnownWith (given : Nat) : FunctionMeaning → Bool
  | operation o => given == o.arity
  | _ => true

/-- What a name with parentheses after a point can mean. -/
inductive SelectorMeaning where
  /-- a selector with a lambda -/
  | lambda (selector : LambdaSelector)
  /-- a selector that can do without its lambda -/
  | optionalLambda (selector : LambdaSelector) (otherwise : Arrangement)
  | arrangement (arrangement : Arrangement)
  | positions
  /-- a selector that is known only without arguments -/
  | custom (select : List Node → View)

/-- The numbers of arguments that a selector takes. -/
def SelectorMeaning.arity : SelectorMeaning → Arity
  | lambda _ => ⟨1, some 1⟩
  | optionalLambda _ _ => ⟨0, some 1⟩
  | arrangement _ | custom _ => ⟨0, some 0⟩
  | positions => ⟨1, none⟩

/-- What an operator between two operands can mean. -/
inductive BinaryMeaning where
  | operation (operation : BinaryOperation)
  | both
  | either
  | fallback
  | custom (operation : Operation)

/-- What an operator with one operand can mean. -/
inductive OperandMeaning where
  | apply (function : UnaryFunction)
  | assert

/-- The words of a dialect. -/
structure Vocabulary where
  /-- names with a value -/
  constants : List (String × Value)
  /-- quoted texts that are not themselves: they have another value, or none -/
  texts : List (String × Option Value)
  /-- spellings of numbers that have no value -/
  refusedNumbers : List String
  functions : List (String × FunctionMeaning)
  selectors : List (String × SelectorMeaning)
  binary : List (String × BinaryMeaning)
  before : List (String × OperandMeaning)
  after : List (String × OperandMeaning)

namespace Vocabulary

/-- The functions of the standard vocabulary. -/
def standardFunctions : List (String × FunctionMeaning) :=
  [("Count", .aggregate .count),
   ("Any", .aggregate .any),
   ("All", .aggregate .all),
   ("Sum", .aggregate .sum),
   ("Average", .aggregate .average),
   ("Min", .aggregate .min),
   ("Max", .aggregate .max),
   ("Lower", .unary .lower),
   ("Upper", .unary .upper),
   ("Len", .unary .len),
   ("Concatenate", .concatenate),
   ("Contains", .test .contains),
   ("StartsWith", .test .startsWith),
   ("EndsWith", .test .endsWith),
   ("Trim", .unary .trim),
   ("ToInt", .unary .toInt),
   ("ToDouble", .unary .toDouble),
   ("ToString", .unary .toText),
   ("ToBoolean", .unary .toBoolean),
   ("ToDateTime", .unary .toMoment),
   ("Abs", .unary .abs),
   ("IsEven", .unary .isEven),
   ("IsOdd", .unary .isOdd),
   ("Now", .now),
   ("IsNull", .unary .isNull),
   ("IsUndefined", .unary .isUndefined),
   ("HasValue", .unary .hasValue),
   ("If", .choose)]

/-- The selectors of the standard vocabulary. -/
def standardSelectors : List (String × SelectorMeaning) :=
  [("Where", .lambda .filter),
   ("Select", .lambda .project),
   ("First", .optionalLambda .first .first),
   ("Last", .optionalLambda .last .last),
   ("Flatten", .arrangement .flatten),
   ("At", .positions),
   ("Reverse", .arrangement .reverse),
   ("Distinct", .arrangement .distinct)]

/-- The operators between two operands of the standard vocabulary. -/
def standardBinary : List (String × BinaryMeaning) :=
  [("+", .operation .sum),
   ("-", .operation (.arithmetic .difference)),
   ("*", .operation (.arithmetic .product)),
   ("/", .operation (.arithmetic .quotient)),
   ("%", .operation (.arithmetic .remainder)),
   ("==", .operation .equal),
   ("!=", .operation .unequal),
   ("<", .operation (.relation .less)),
   ("<=", .operation (.relation .lessOrEqual)),
   (">", .operation (.relation .greater)),
   (">=", .operation (.relation .greaterOrEqual)),
   ("&&", .both),
   ("||", .either),
   (":", .fallback)]

/-- The standard vocabulary. -/
def standard : Vocabulary where
  constants :=
    [("true", .boolean true), ("false", .boolean false), ("null", .null), ("undefined", .undefined)]
  texts := []
  refusedNumbers := []
  functions := standardFunctions
  selectors := standardSelectors
  binary := standardBinary
  before := [("-", .apply .negate), ("!", .apply .not)]
  after := [("assert", .assert)]

end Vocabulary

/-- A language and the meanings of its words. -/
structure Dialect where
  language : Language
  vocabulary : Vocabulary

/-- The standard dialect. -/
def Dialect.standard : Dialect := ⟨.standard, .standard⟩

end DocQuery
