/-
The strings of a document that are to be computed.

* `Directive` — a cell of a draft and what is to become of it;
* `directiveOf` — the directive in a cell;
* `detect` — all directives of a draft, in the order in which they are tried.

Design notes: a draft is searched completely, and one malformed string is enough for none of them to
be computed. Of the kinds, members to copy come first, then items to merge, whole values and strings
with expressions inside; within a kind the order of the document counts.
-/
import DocQuery.Directive.Spelling
import DocQuery.Draft.Freeze
import DocQuery.Formula.Compile

namespace DocQuery

/-- A part of a string that is computed: text as it is, or a formula for it. -/
inductive Part where
  | text (content : String)
  | formula (formula : Formula)

/-- What is to become of a string. -/
inductive Action where
  /-- the members of other objects take the place of this one -/
  | copyFields (source : Formula)
  /-- other items take the place of this one -/
  | merge (source : Formula)
  /-- another value takes its place -/
  | value (source : Formula)
  /-- the text that its parts make takes its place -/
  | interpolate (parts : List Part)

/-- The kinds of actions. -/
inductive ActionKind where
  | copyFields
  | merge
  | value
  | interpolate
deriving DecidableEq, Repr

/-- The kinds of actions in the order in which they are tried. -/
def ActionKind.all : List ActionKind := [copyFields, merge, value, interpolate]

/-- The kind of an action. -/
def Action.kind : Action → ActionKind
  | copyFields _ => .copyFields
  | merge _ => .merge
  | value _ => .value
  | interpolate _ => .interpolate

/-- Where the first formula of an action stands. -/
def Action.position? : Action → Option Position
  | copyFields f | merge f | value f => some f.position
  | interpolate parts =>
    parts.findSome? fun
      | .text _ => none
      | .formula f => some f.position

/-- A cell of a draft and what is to become of it. -/
structure Directive where
  cell : Nat
  action : Action

/-- A result of two results, or the faults of both. -/
def gather {α β γ : Type} (f : α → β → γ) :
    Except (List Fault) α → Except (List Fault) β → Except (List Fault) γ
  | .ok a, .ok b => .ok (f a b)
  | .ok _, .error more => .error more
  | .error faults, .ok _ => .error faults
  | .error faults, .error more => .error (faults ++ more)

/-- The formula of an expression in a string, with the faults of it as a list. -/
def compileIn (d : Dialect) (content : List Char) (origin : Position) :
    Except (List Fault) Formula :=
  (compileExpression d (String.ofList content) origin).mapError fun fault => [fault]

/-- The part of a computed string that a fragment of the string in the cell `c` stands for. -/
def Fragment.compile (d : Dialect) (c : Cell) : Fragment → Except (List Fault) Part
  | text content => .ok (.text (String.ofList content))
  | expression content offset => (compileIn d content (c.textPosition offset)).map .formula

/-- The parts that fragments stand for, or the faults of all of them. -/
def compileFragments (d : Dialect) (c : Cell) : List Fragment → Except (List Fault) (List Part)
  | [] => .ok []
  | fragment :: fragments =>
    gather (· :: ·) (fragment.compile d c) (compileFragments d c fragments)

/-- What is to become of the string `cs` with expressions in the cell `c`, if it has any. -/
def interpolationIn (d : Dialect) (c : Cell) (cs : List Char) :
    Except (List Fault) (Option Action) :=
  if hasExpression cs then
    match splitInterpolation cs with
    | .error offset => .error [.malformed .unclosedInterpolation (c.textPosition offset)]
    | .ok fragments => (compileFragments d c fragments).map fun parts => some (.interpolate parts)
  else .ok none

/-- What is to become of the string `cs` in the cell `c`, which sits in the slot `slot`. -/
def stringAction (d : Dialect) (c : Cell) (slot : Option Slot) (cs : List Char) :
    Except (List Fault) (Option Action) :=
  let isOpen (marker : List Char) := marker.isPrefixOf cs && (callEnd? marker cs).isNone
  match [valueMarker, mergeMarker].find? isOpen with
  | some marker =>
    .error [.malformed (.unclosedCall (String.ofList marker.dropLast))
      (c.textPosition (marker.length - 1))]
  | none =>
    match callBody? valueMarker cs, callBody? mergeMarker cs with
    | some body, _ =>
      (compileIn d body (c.textPosition valueMarker.length)).map fun f => some (.value f)
    | none, some body =>
      match slot with
      | some (.item _ _) =>
        (compileIn d body (c.textPosition mergeMarker.length)).map fun f => some (.merge f)
      | _ => .error [.malformed .mergeOutsideArray c.position]
    | none, none => interpolationIn d c cs

/-- What is to become of a cell that holds the member `$copyFields`. -/
def copyFieldsAction (d : Dialect) (c : Cell) : Except (List Fault) (Option Action) :=
  match c.content with
  | .scalar ⟨text, true⟩ =>
    (compileIn d text.toList (c.textPosition 0)).map fun f => some (.copyFields f)
  | _ => .error [.malformed .copyFieldsNotText c.position]

/-- Whether a slot is that of the member `$copyFields`. -/
def Slot.isCopyFields : Slot → Bool
  | .member _ name => name == copyFieldsName
  | .item _ _ => false

/-- What is to become of the cell `c`, which sits in the slot `slot`. -/
def cellAction (d : Dialect) (c : Cell) (slot : Option Slot) :
    Except (List Fault) (Option Action) :=
  if slot.any Slot.isCopyFields then
    copyFieldsAction d c
  else
    match c.content with
    | .scalar ⟨text, true⟩ => stringAction d c slot text.toList
    | _ => .ok none

/-- The directive in the cell `id` of a draft. -/
def directiveOf (d : Dialect) (draft : Draft) (id : Nat) :
    Except (List Fault) (Option Directive) :=
  match draft.cells[id]? with
  | none => .ok none
  | some c => (cellAction d c (draft.slot? id)).map fun action => action.map fun a => ⟨id, a⟩

/-- The directives in the given cells, or the faults of all of them. -/
def directivesOf (d : Dialect) (draft : Draft) : List Nat → Except (List Fault) (List Directive)
  | [] => .ok []
  | id :: ids =>
    gather (·.toList ++ ·) (directiveOf d draft id) (directivesOf d draft ids)

/-- Directives by their kinds. -/
def sortByKind (directives : List Directive) : List Directive :=
  ActionKind.all.flatMap fun kind => directives.filter fun x => x.action.kind = kind

/-- The directives of a draft in the order in which they are tried, or all faults of them. -/
def detect (d : Dialect) (draft : Draft) : Except (List Fault) (List Directive) :=
  (directivesOf d draft draft.order).map sortByKind

end DocQuery
