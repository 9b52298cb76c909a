/-
Plain data held by a JSON value.

* `Json.integers?`, `Json.text?`, `Json.flag?`, `Json.textMap?` — a value as a list of integers, a
  text, a truth value, or a table of optional texts, if it has that shape.
-/
import DocQuery.Json.Basic

namespace DocQuery.Json

/-- An integer that fits 64 bits with a sign. -/
def integer? : Json → Option Int
  | .number (.integer i) => if -Nat.pow 2 63 ≤ i ∧ i < Nat.pow 2 63 then some i else none
  | _ => none

/-- An array of integers. -/
def integers? : Json → Option (List Int)
  | .array items => items.mapM integer?
  | _ => none

/-- A text. -/
def text? : Json → Option String
  | .text s => some s
  | _ => none

/-- A truth value. -/
def flag? : Json → Option Bool
  | .boolean b => some b
  | _ => none

/-- A text or null. -/
def optionalText? : Json → Option (Option String)
  | .null => some none
  | .text s => some (some s)
  | _ => none

/-- An object whose members are texts or null. -/
def textMap? : Json → Option (List (String × Option String))
  | .object members =>
    members.mapM fun member => (optionalText? member.2).map fun value => (member.1, value)
  | _ => none

end DocQuery.Json
