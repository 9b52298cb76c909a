/-
JSON values without their source: what a document is worth once its text is forgotten.

* `Numeral` — a number is an integer of 64 bits, signed or not, or a double;
* `Json` — the values, with the members of an object in the order of their names;
* `Json.ofMembers` — an object from members in any order.

Design notes: two values are equal (`Json.same`) when they have the same form. An integer and a
double are different numerals even where they denote the same number, doubles are compared as
doubles, and the order in which members were written does not show.
-/
namespace DocQuery

/-- A number of a JSON value. -/
inductive Numeral where
  | integer (value : Int)
  | double (value : Float)

/-- Numerals are equal when they are of one sort and denote the same number. -/
def Numeral.same : Numeral → Numeral → Bool
  | .integer a, .integer b => a == b
  | .double a, .double b => a == b
  | _, _ => false

/-- A JSON value. The members of an object are sorted by name, each name once. -/
inductive Json where
  | null
  | boolean (value : Bool)
  | number (value : Numeral)
  | text (value : String)
  | array (items : List Json)
  | object (members : List (String × Json))

namespace Json

mutual

/-- Equality of values. -/
def same : Json → Json → Bool
  | .null, .null => true
  | .boolean a, .boolean b => a == b
  | .number a, .number b => a.same b
  | .text a, .text b => a == b
  | .array a, .array b => sameItems a b
  | .object a, .object b => sameMembers a b
  | _, _ => false

/-- Equality of items, one by one. -/
def sameItems : List Json → List Json → Bool
  | [], [] => true
  | a :: as, b :: bs => same a b && sameItems as bs
  | _, _ => false

/-- Equality of members, one by one. -/
def sameMembers : List (String × Json) → List (String × Json) → Bool
  | [], [] => true
  | (n, a) :: as, (m, b) :: bs => n == m && same a b && sameMembers as bs
  | _, _ => false

end

/-- Sorted members with one more member; a member of the same name is replaced. -/
def insertMember (name : String) (value : Json) : List (String × Json) → List (String × Json)
  | [] => [(name, value)]
  | (other, old) :: rest =>
    if name < other then (name, value) :: (other, old) :: rest
    else if name = other then (name, value) :: rest
    else (other, old) :: insertMember name value rest

/-- The object with the given members, sorted by name. Of members with one name the last counts. -/
def ofMembers (members : List (String × Json)) : Json :=
  .object (members.foldl (fun sorted member => insertMember member.1 member.2 sorted) [])

end Json

end DocQuery
