/-
Scalars of a document.

* `Scalar` — a text, and whether it stands between quotes;
* `Scalar.isNull`, `Scalar.boolean?`, `Scalar.number?` — what a scalar without quotes says;
* `Scalar.toJson`, `Scalar.ofNumeral` — to a JSON value, and from a number of one.

Design notes: the spelling is kept, so `1.50` stays `1.50` wherever it is copied, and the quotes
keep `"1"` and `1`, `"null"` and `null` apart.
-/
import DocQuery.Json.Numeral
import DocQuery.Json.Text

namespace DocQuery

/-- A scalar of a document. -/
structure Scalar where
  text : String
  isQuoted : Bool
deriving DecidableEq, Repr

namespace Scalar

/-- A text between quotes. -/
def quoted (text : String) : Scalar := ⟨text, true⟩

/-- A word or a number. -/
def bare (text : String) : Scalar := ⟨text, false⟩

/-- The scalar `null`. -/
def null : Scalar := bare "null"

/-- The scalars `true` and `false`. -/
def ofBool (b : Bool) : Scalar := bare (if b then "true" else "false")

/-- The scalar that spells a number of a JSON value. -/
def ofNumeral (n : Numeral) : Scalar := bare (String.ofList (Json.writeNumeral n))

/-- Whether a scalar is `null`. -/
def isNull (s : Scalar) : Bool := s = null

/-- The truth value that a scalar is. -/
def boolean? (s : Scalar) : Option Bool :=
  if s = ofBool true then some true
  else if s = ofBool false then some false
  else none

/-- The number that a scalar is. -/
def number? (s : Scalar) : Option Float :=
  if s.isQuoted || s.isNull || s.boolean?.isSome then none
  else Number.readNumber? s.text.toList

/-- The JSON value of a scalar that is neither quoted nor a word of JSON. A number by the JSON
grammar keeps its sort, another number is a double, and what is no finite number remains a text. -/
def bareJson (text : String) : Json :=
  match Numeral.read? text.toList with
  | some numeral => .number numeral
  | none =>
    match (Number.readNumber? text.toList).bind Numeral.ofDouble? with
    | some numeral => .number numeral
    | none => .text text

/-- The JSON value of a scalar. -/
def toJson (s : Scalar) : Json :=
  if s.isQuoted then .text s.text
  else if s.isNull then .null
  else
    match s.boolean? with
    | some b => .boolean b
    | none => bareJson s.text

end Scalar

end DocQuery
