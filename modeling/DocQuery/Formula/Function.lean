/-
The functions and operators that work on finished values.

* `UnaryFunction` — functions of one value, among them the operators before an operand;
* `TextTest` — the tests of one text against another;
* `BinaryOperation` — the operators that need both operands;
* `Operation` — functions that a vocabulary adds, given by what they compute.

Design notes: operands come with the places where they stand, since the fault of an operand shows
there. Operators that may leave an operand alone are not in this file.
-/
import DocQuery.Formula.Kind
import DocQuery.Text.Casing
import DocQuery.Value.Compare

namespace DocQuery

/-- A value and the place of the expression that it comes from. -/
structure Operand where
  value : Value
  position : Position

namespace Operand

/-- The operand as a truth value. -/
def boolean (a : Operand) : Except Fault Bool := a.value.toBoolean a.position

/-- The operand as a number. -/
def number (a : Operand) : Except Fault Float := a.value.toNumber a.position

/-- The operand as a text. -/
def text (a : Operand) : Except Fault String := a.value.toText a.position

end Operand

/-- A function of one value. -/
inductive UnaryFunction where
  | negate
  | not
  | lower
  | upper
  | trim
  | len
  | toInt
  | toDouble
  | toText
  | toBoolean
  | toMoment
  | abs
  | isEven
  | isOdd
  | isNull
  | isUndefined
  | hasValue
deriving DecidableEq, Repr

namespace UnaryFunction

/-- The type of the results of a function. -/
def kind : UnaryFunction → Kind
  | lower | upper | trim | toText => .text
  | negate | len | toInt | toDouble | abs => .number
  | toMoment => .moment
  | not | toBoolean | isEven | isOdd | isNull | isUndefined | hasValue => .boolean

/-- The integer that the function `name` expects, cut off to 64 bits. -/
def integer (name : String) (a : Operand) : Except Fault Int := do
  let x ← a.number
  if Number.isIntegral x then .ok (Number.integerPart x)
  else .error (.failed (.fractionalInteger name x) a.position)

/-- The truth value that a word means, in any mixture of cases. -/
def booleanWord? (text : String) : Option Bool :=
  let word := (Text.trim text.toList).map Char.toLower
  if word = ['t', 'r', 'u', 'e'] then some true
  else if word = ['f', 'a', 'l', 's', 'e'] then some false
  else none

/-- The truth value that a value stands for: itself, a number other than zero, or a word. -/
def readBoolean (a : Operand) : Except Fault Bool :=
  let found :=
    match a.value.atom? with
    | some (.boolean b) => some b
    | some (.number x) => some (x != 0)
    | some (.text s) => booleanWord? s
    | _ => none
  match found with
  | some b => .ok b
  | none => .error (a.value.mismatch .boolean a.position)

/-- A text with its characters changed by `change`. -/
def mapText (change : List Char → List Char) (a : Operand) : Except Fault Value := do
  let s ← a.text
  .ok (.text (String.ofList (change s.toList)))

/-- The result of a function. -/
def run (options : Options) (a : Operand) : UnaryFunction → Except Fault Value
  | negate => a.number.map fun x => .number (-x)
  | not => a.boolean.map fun b => .boolean !b
  | lower => mapText Text.lowercase a
  | upper => mapText Text.uppercase a
  | trim => mapText Text.trim a
  | len => a.text.map fun s => .number (Number.ofInt s.toList.length)
  | toInt => a.number.map fun x => .number (Number.truncate x)
  | toDouble => a.number.map .number
  | toText => (a.value.display a.position).map .text
  | toBoolean => (readBoolean a).map .boolean
  | toMoment => (a.value.toMoment options a.position).map .moment
  | abs => a.number.map fun x => .number x.abs
  | isEven => (integer "IsEven" a).map fun i => .boolean (i % 2 == 0)
  | isOdd => (integer "IsOdd" a).map fun i => .boolean (i % 2 != 0)
  | isNull => .ok (.boolean a.value.isNull)
  | isUndefined => .ok (.boolean a.value.isUndefined)
  | hasValue => .ok (.boolean !a.value.isMissing)

end UnaryFunction

/-- A test of one text against another. -/
inductive TextTest where
  | contains
  | startsWith
  | endsWith
deriving DecidableEq, Repr

/-- Whether `part` occurs somewhere in `whole`. -/
def Text.contains (part : List Char) : (whole : List Char) → Bool
  | [] => part.isEmpty
  | c :: cs => part.isPrefixOf (c :: cs) || Text.contains part cs

/-- Whether the text `whole` passes a test against the text `part`. -/
def TextTest.holds (whole part : String) : TextTest → Bool
  | .contains => Text.contains part.toList whole.toList
  | .startsWith => part.toList.isPrefixOf whole.toList
  | .endsWith => part.toList.isSuffixOf whole.toList

/-- The operators between two numbers, the sum aside. -/
inductive Arithmetic where
  | difference
  | product
  | quotient
  | remainder
deriving DecidableEq, Repr

/-- The relations between two values that have an order. -/
inductive Relation where
  | less
  | lessOrEqual
  | greater
  | greaterOrEqual
deriving DecidableEq, Repr

/-- Whether a relation holds between two values of this order. -/
def Relation.holds : Relation → Ordering → Bool
  | .less, o => o == .lt
  | .lessOrEqual, o => o != .gt
  | .greater, o => o == .gt
  | .greaterOrEqual, o => o != .lt

/-- An operator that needs both operands. -/
inductive BinaryOperation where
  | sum
  | arithmetic (operator : Arithmetic)
  | equal
  | unequal
  | relation (relation : Relation)
deriving DecidableEq, Repr

namespace BinaryOperation

/-- The type of the results of an operator. A sum of texts is a text. -/
def kind : BinaryOperation → Kind
  | sum => .any
  | arithmetic _ => .number
  | equal | unequal | relation _ => .boolean

/-- The result of an operator at `position` between two numbers. -/
def compute (position : Position) (x y : Float) : Arithmetic → Except Fault Float
  | .difference => .ok (x - y)
  | .product => .ok (x * y)
  | .quotient => if y == 0 then .error (.failed .divisionByZero position) else .ok (x / y)
  | .remainder =>
    if y == 0 then .error (.failed .divisionByZero position) else .ok (Number.remainder x y)

/-- Whether an operand is a text. -/
def isText (a : Operand) : Bool :=
  match a.value.atom? with
  | some (.text _) => true
  | _ => false

/-- The sum of two operands. If one of them is a text, both are taken as texts. -/
def add (a b : Operand) : Except Fault Value :=
  if isText a || isText b then do
    let s ← a.text
    let t ← b.text
    .ok (.text (s ++ t))
  else do
    let x ← a.number
    let y ← b.number
    .ok (.number (x + y))

/-- The result of an operator at `position`. -/
def run (options : Options) (position : Position) (a b : Operand) :
    BinaryOperation → Except Fault Value
  | sum => add a b
  | arithmetic operator => do
    let x ← a.number
    let y ← b.number
    let z ← compute position x y operator
    .ok (.number z)
  | equal => .ok (.boolean (a.value.same options b.value))
  | unequal => .ok (.boolean !(a.value.same options b.value))
  | relation r => (a.value.order options position b.value).map fun o => .boolean (r.holds o)

end BinaryOperation

/-- A function that a vocabulary adds: its arguments are converted to one type, and `compute` gets
them in their order. -/
structure Operation where
  kind : Kind
  arity : Nat
  operandType : ScalarType
  compute : List Value → Value

end DocQuery
