/-
Conversions between the types of values.

* `Value.toBoolean`, `Value.toNumber`, `Value.toText`, `Value.toMoment` — a value as a value of a
  scalar type, or the fault of expecting one;
* `Value.convert?` — the same for a type given as data;
* `Value.display` — the text that a value leaves inside another text.

Design notes: a text counts as a number or a moment if it reads as one, and every scalar counts as a
text. Nothing but a truth value counts as a truth value.
-/
import DocQuery.Options
import DocQuery.Time.Pattern
import DocQuery.Value.Basic

namespace DocQuery

open Time (Moment)

/-- The number that a text spells, white space aside. -/
def numberInText? (text : String) : Option Float :=
  Number.readNumber? (Text.trim text.toList)

/-- The moment that a text names. -/
def momentInText? (options : Options) (text : String) : Option Moment :=
  Moment.read? options.momentPatterns text.toList

namespace Value

/-- The fault of a value, found at `position`, that is not of the type `expected`. -/
def mismatch (expected : ScalarType) (position : Position) (v : Value) : Fault :=
  .failed (.wrongType expected v.sort) position

/-- The truth value that is expected at `position`. -/
def toBoolean (position : Position) (v : Value) : Except Fault Bool :=
  match v.atom? with
  | some (.boolean b) => .ok b
  | _ => .error (v.mismatch .boolean position)

/-- The number that is expected at `position`. -/
def toNumber (position : Position) (v : Value) : Except Fault Float :=
  let found :=
    match v.atom? with
    | some (.number x) => some x
    | some (.text s) => numberInText? s
    | _ => none
  match found with
  | some x => .ok x
  | none => .error (v.mismatch .number position)

/-- The text that is expected at `position`. -/
def toText (position : Position) (v : Value) : Except Fault String :=
  match v.atom? with
  | some a => .ok a.render
  | none => .error (v.mismatch .text position)

/-- The moment that is expected at `position`. -/
def toMoment (options : Options) (position : Position) (v : Value) : Except Fault Moment :=
  let found :=
    match v.atom? with
    | some (.moment m) => some m
    | some (.text s) => momentInText? options s
    | _ => none
  match found with
  | some m => .ok m
  | none => .error (v.mismatch .moment position)

/-- The value of the type `expected` that is expected at `position`. -/
def expect (options : Options) (expected : ScalarType) (position : Position) (v : Value) :
    Except Fault Value :=
  match expected with
  | .boolean => (v.toBoolean position).map .boolean
  | .number => (v.toNumber position).map .number
  | .text => (v.toText position).map .text
  | .moment => (v.toMoment options position).map .moment

/-- A value as one of the type `expected`, if it converts. -/
def convert? (options : Options) (expected : ScalarType) (v : Value) : Option Value :=
  (v.expect options expected .start).toOption

/-- A value without its places, where it is of documents. -/
def structure? : Value → Option Json
  | node n => some n.toJson
  | nodes ns => some (.array (Node.itemsToJson ns))
  | _ => none

/-- The text that a value, found at `position`, leaves inside another text: a scalar as it is, and
the JSON text of anything else. -/
def display (position : Position) (v : Value) : Except Fault String :=
  match v.atom?, v.structure? with
  | some a, _ => .ok a.render
  | none, some json => .ok json.compact
  | none, none => if v.isUndefined then .error (.failed .undefinedValue position) else .ok "null"

end Value

end DocQuery
