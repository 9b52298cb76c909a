/-
What an expression is worth.

* `Value` — computed values, values of documents, and collections of these;
* `Atom` — the values that operators work with, and `Value.atom?`, which finds one in a value;
* `Value.items` — what a function over collections goes through;
* `Value.toNode?` — a value placed in a document.

Design notes: a missing value is `undefined`, which is not `null`. Both count as no value, and so
does a `null` that stands in a document.
-/
import DocQuery.Fault
import DocQuery.Node
import DocQuery.Time.Moment

namespace DocQuery

open Time (Moment)

/-- The value of an expression. -/
inductive Value where
  /-- nothing was found -/
  | undefined
  | null
  | boolean (value : Bool)
  | number (value : Float)
  | text (value : String)
  | moment (value : Moment)
  /-- a value of a document -/
  | node (value : Node)
  /-- values of documents, one after the other -/
  | nodes (items : List Node)

/-- A value that operators work with. -/
inductive Atom where
  | boolean (value : Bool)
  | number (value : Float)
  | text (value : String)
  | moment (value : Moment)

/-- The sort of a value of a document. -/
def Node.sort : Node → ValueSort
  | .object _ _ => .object
  | .array _ _ => .array
  | .scalar _ s =>
    if s.isNull then .null
    else if s.isQuoted then .text
    else if s.boolean?.isSome then .boolean
    else .number

/-- The atom that a scalar of a document is. -/
def Scalar.atom? (s : Scalar) : Option Atom :=
  if s.isQuoted then some (.text s.text)
  else
    match s.boolean? with
    | some b => some (.boolean b)
    | none => s.number?.map .number

/-- The text of an atom. -/
def Atom.render : Atom → String
  | .boolean b => if b then "true" else "false"
  | .number x => Number.display x
  | .text s => s
  | .moment m => m.render

namespace Value

/-- The sort of a value. -/
def sort : Value → ValueSort
  | undefined => .undefined
  | null => .null
  | boolean _ => .boolean
  | number _ => .number
  | text _ => .text
  | moment _ => .moment
  | node n => n.sort
  | nodes _ => .collection

/-- Whether nothing was found. -/
def isUndefined : Value → Bool
  | undefined => true
  | _ => false

/-- Whether a value is `null`, computed or in a document. -/
def isNull : Value → Bool
  | null => true
  | node n => n.isNull
  | _ => false

/-- Whether there is no value. -/
def isMissing (v : Value) : Bool :=
  v.isUndefined || v.isNull

/-- The atom that a value is. There is none for a missing value, an object, an array or a
collection. -/
def atom? : Value → Option Atom
  | boolean b => some (.boolean b)
  | number x => some (.number x)
  | text s => some (.text s)
  | moment m => some (.moment m)
  | node n => n.scalar?.bind Scalar.atom?
  | undefined | null | nodes _ => none

/-- What the collection function `function`, whose collection stands at `position`, goes through:
the items of an array or of a collection, another value of a document as a single item, and nothing
where nothing was found. -/
def items (function : String) (position : Position) : Value → Except Fault (List Node)
  | undefined => .ok []
  | nodes ns => .ok ns
  | node n => .ok (n.items?.getD [n])
  | v => .error (.failed (.collectionExpected function v.sort) position)

/-- A value placed at `path`, unless nothing was found. A value that is there already stays. -/
def toNode? (path : Path) : Value → Option Node
  | undefined => none
  | null => some (.null path)
  | boolean b => some (.scalar (.at path) (.ofBool b))
  | number x => some (.scalar (.at path) (.bare (Number.display x)))
  | text s => some (.scalar (.at path) (.quoted s))
  | moment m => some (.scalar (.at path) (.quoted m.render))
  | node n => some (if n.path = path then n else n.copiedTo path)
  | nodes ns => some (.array (.at path) (Node.copyItems path 0 ns))

end Value

end DocQuery
