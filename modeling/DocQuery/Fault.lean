/-
What can go wrong, and how it is reported.

A fault is a cause together with the place where it shows. Malformed texts and expressions are told
apart from expressions that fail when they are evaluated.

* `SyntaxProblem`, `EvaluationProblem`, `BrokenInvariant` — the causes;
* `maximalNesting` — the depth at which texts become malformed;
* `Fault` — a cause and its place, with `Fault.message` and `Fault.render`;
* `Report` — a fault of a named document, as a list of faults shows it.

Design notes: the wording of every message is in this file, and nothing but messages is decided by
it. A broken invariant has no place: no document and no expression leads to one.
-/
import DocQuery.Expr.Token
import DocQuery.Number.Layout

namespace DocQuery

/-- The sort of a value, as messages name it. -/
inductive ValueSort where
  | undefined
  | null
  | boolean
  | number
  | text
  | moment
  | object
  | array
  | collection
deriving DecidableEq, Repr

/-- A value of this sort, in a message. -/
def ValueSort.describe : ValueSort → String
  | .undefined => "undefined"
  | .null => "null"
  | .boolean => "a boolean"
  | .number => "a number"
  | .text => "a string"
  | .moment => "a date-time"
  | .object => "an object"
  | .array => "an array"
  | .collection => "a collection"

/-- The types that a scalar can be asked for. -/
inductive ScalarType where
  | boolean
  | number
  | text
  | moment
deriving DecidableEq, Repr

/-- The sort of the values of a scalar type. -/
def ScalarType.sort : ScalarType → ValueSort
  | .boolean => .boolean
  | .number => .number
  | .text => .text
  | .moment => .moment

/-- The numbers of arguments that a function takes; there may be no greatest one. -/
structure Arity where
  least : Nat
  greatest : Option Nat
deriving DecidableEq, Repr

/-- Whether a function of this arity takes `n` arguments. -/
def Arity.admits (a : Arity) (n : Nat) : Bool :=
  a.least ≤ n && (a.greatest.all fun greatest => n ≤ greatest)

/-- What is wrong with a text. -/
inductive SyntaxProblem where
  /-- a reason given by a caller -/
  | reported (reason : String)
  | nameExpected
  | numberExpected
  | stringExpected
  | quoteExpected
  | invalidEscape (c : Char)
  | invalidUnicodeEscape
  | unpairedSurrogate
  | unterminatedString
  | characterExpected (c : Char)
  | unexpectedCharacter (c : Char)
  | nestingTooDeep
  | contentAfterValue
  | endOfJson
  | memberNameExpected
  | duplicateMember (name : String)
  | invalidNumber (text : String)
  | invalidLiteral (word : String)
  | missingClosing (bracket : Char)
  | separatorExpected (bracket : Char)
  | emptyExpression
  | endOfExpression
  | unexpectedToken (token : TokenKind)
  | argumentSeparatorExpected (bracket : TokenKind) (found : TokenKind)
  | missingClosingToken (bracket : TokenKind)
  | emptyIndex
  | groupOfOne
  | keywordParameter (name : String)
  | duplicateParameter (name : String)
  | lambdaExpected (function : String)
  | lambdaParameters (function : String)
  | strayLambda
  | unsupportedNumber (text : String)
  | unsupportedText (text : String)
  | disabledNumberFormat (text : String)
  | unsupportedOperator (name : String)
  | unknownFunction (name : String)
  | selectorWithoutPath (name : String)
  | unknownSelector (name : String)
  | pathElementExpected
  | wrongArity (function : String) (arity : Arity) (given : Nat)
  | copyFieldsNotText
  | unclosedCall (marker : String)
  | unclosedInterpolation
  | mergeOutsideArray
deriving DecidableEq, Repr

/-- The greatest number of levels of containers in a JSON text and of an expression. -/
def maximalNesting : Nat := 128

/-- What keeps an expression from having a value. -/
inductive EvaluationProblem where
  | wrongType (expected : ScalarType) (found : ValueSort)
  | undefinedValue
  | incomparable (sort : ValueSort)
  | incomparablePair (left right : ValueSort)
  | divisionByZero
  | assertionFailed (found : ValueSort)
  | assertionOfEmpty
  | fractionalIndex (value : Float)
  | fractionalInteger (function : String) (value : Float)
  | collectionExpected (function : String) (found : ValueSort)
  | copyFromNonObject (found : ValueSort)
  | copyFromNonObjects
  | circularReference
deriving DecidableEq, Repr

/-- What no document and no expression can bring about. -/
inductive BrokenInvariant where
  | spliceOutsideArray
  | unboundParameter (name : String)
  | copyFieldsOutsideObject
deriving DecidableEq, Repr

/-- Something that went wrong. -/
inductive Fault where
  /-- a text is malformed -/
  | malformed (problem : SyntaxProblem) (position : Position)
  /-- an expression has no value -/
  | failed (problem : EvaluationProblem) (position : Position)
  /-- the library is at fault -/
  | broken (invariant : BrokenInvariant)
deriving DecidableEq, Repr

/-- An arity in words. -/
def Arity.describe (a : Arity) : String :=
  match a.greatest with
  | none => "at least " ++ toString a.least
  | some greatest =>
    if a.least = greatest then toString a.least
    else toString a.least ++ " to " ++ toString greatest

/-- The message of a call with the wrong number of arguments. -/
def Arity.message (a : Arity) (function : String) (given : Nat) : String :=
  let expected := a.describe
  let noun := if expected = "1" then "argument" else "arguments"
  function ++ " expects " ++ expected ++ " " ++ noun ++ " but got " ++ toString given

/-- A word between single quotes. -/
def quoted (text : String) : String :=
  "'" ++ text ++ "'"

/-- A character between single quotes. -/
def quotedChar (c : Char) : String :=
  quoted (String.singleton c)

namespace SyntaxProblem

/-- The message of a problem with a text. -/
def message : SyntaxProblem → String
  | reported reason => reason
  | nameExpected => "identifier expected"
  | numberExpected => "number expected"
  | stringExpected => "string expected"
  | quoteExpected => "expected quoted string"
  | invalidEscape c => "invalid escape sequence " ++ quoted ("\\" ++ String.singleton c)
  | invalidUnicodeEscape => "invalid unicode escape"
  | unpairedSurrogate => "unpaired surrogate in unicode escape"
  | unterminatedString => "unterminated string"
  | characterExpected c => "expected " ++ quotedChar c
  | unexpectedCharacter c => "unexpected character " ++ quotedChar c
  | nestingTooDeep => "nesting too deep"
  | contentAfterValue => "unexpected content after the JSON value"
  | endOfJson => "unexpected end of JSON text"
  | memberNameExpected => "expected a property name"
  | duplicateMember name => "duplicate property " ++ quoted name
  | invalidNumber text => "invalid number " ++ quoted text
  | invalidLiteral word => "invalid literal " ++ quoted word
  | missingClosing bracket => "missing closing " ++ quotedChar bracket
  | separatorExpected bracket => "expected ',' or " ++ quotedChar bracket
  | emptyExpression => "expression is empty"
  | endOfExpression => "unexpected end of expression"
  | unexpectedToken token => "unexpected " ++ token.render
  | argumentSeparatorExpected bracket found =>
    "expected ',' or " ++ bracket.render ++ " but found " ++ found.render
  | missingClosingToken bracket => "missing closing " ++ bracket.render
  | emptyIndex => "indexer requires at least one index"
  | groupOfOne => "parentheses must contain exactly one expression"
  | keywordParameter name => "keyword " ++ quoted name ++ " cannot be a lambda parameter"
  | duplicateParameter name => "duplicate lambda parameter " ++ quoted name
  | lambdaExpected function => function ++ " expects a lambda such as x => x > 0"
  | lambdaParameters function => function ++ " expects a lambda with one or two parameters"
  | strayLambda => "a lambda can only be passed to a collection function"
  | unsupportedNumber text => "unsupported number " ++ quoted text
  | unsupportedText text => "unsupported text " ++ quoted text
  | disabledNumberFormat text => "number format of " ++ quoted text ++ " is not enabled"
  | unsupportedOperator name => "operator " ++ quoted name ++ " is not supported"
  | unknownFunction name => "unknown function " ++ quoted name
  | selectorWithoutPath name =>
    name ++ " must be applied to a collection, as in Items." ++ name ++ "(...)"
  | unknownSelector name => "unknown collection function " ++ quoted name
  | pathElementExpected => "expected a property name or a collection function after '.'"
  | wrongArity function arity given => arity.message function given
  | copyFieldsNotText => "$copyFields expects an expression string"
  | unclosedCall marker => "missing closing ')' in " ++ marker
  | unclosedInterpolation => "missing closing ')' in interpolation"
  | mergeOutsideArray => "$merge can only be used as an array item"

end SyntaxProblem

namespace EvaluationProblem

/-- The message of a failed evaluation. -/
def message : EvaluationProblem → String
  | wrongType expected found =>
    "expected " ++ expected.sort.describe ++ " but the value is " ++ found.describe
  | undefinedValue => "value is undefined"
  | incomparable sort => "cannot compare " ++ sort.describe
  | incomparablePair left right =>
    "cannot compare " ++ left.describe ++ " with " ++ right.describe
  | divisionByZero => "division by zero"
  | assertionFailed found => "assertion failed: value is " ++ found.describe
  | assertionOfEmpty => "assertion failed: collection is empty"
  | fractionalIndex value => "index must be an integer but was " ++ Number.plain value
  | fractionalInteger function value =>
    function ++ " expects an integer but the value is " ++ Number.plain value
  | collectionExpected function found =>
    function ++ " expects a collection but the value is " ++ found.describe
  | copyFromNonObject found => "$copyFields expects an object but the value is " ++ found.describe
  | copyFromNonObjects => "$copyFields expects objects to copy from"
  | circularReference => "circular reference between expressions"

end EvaluationProblem

/-- The message of a broken invariant. -/
def BrokenInvariant.message : BrokenInvariant → String
  | .spliceOutsideArray => "splice target is not an array item"
  | .unboundParameter name => "lambda parameter " ++ quoted name ++ " is not bound"
  | .copyFieldsOutsideObject => "$copyFields is not a property"

namespace Fault

/-- The message, without the place. -/
def message : Fault → String
  | malformed problem _ => problem.message
  | failed problem _ => problem.message
  | broken invariant => invariant.message

/-- The place, if the fault has one. -/
def position? : Fault → Option Position
  | malformed _ position => some position
  | failed _ position => some position
  | broken _ => none

/-- The sort of fault, its place and its message in one line. -/
def render : Fault → String
  | malformed problem position =>
    "syntax error at " ++ position.render ++ ": " ++ problem.message
  | failed problem position =>
    "evaluation error at " ++ position.render ++ ": " ++ problem.message
  | broken invariant => "internal error: " ++ invariant.message

end Fault

/-- A fault of a document, in the list that a compilation or a query gives back. -/
structure Report where
  document : String
  message : String
  position : Option Position
deriving DecidableEq, Repr

namespace Report

/-- The report of a fault that was found in a document. -/
def ofFault (document : String) (fault : Fault) : Report :=
  ⟨document, fault.message, fault.position?⟩

/-- A report in one line: the document, the place if there is one, the message. -/
def render (r : Report) : String :=
  match r.position with
  | some position => r.document ++ ":" ++ position.render ++ ": " ++ r.message
  | none => r.document ++ ": " ++ r.message

end Report

end DocQuery
