/-
Computing the strings of a document.

* `Workshop` — the document that is made, and what it is made with;
* `Workshop.compute` — what an action gives, against the draft as it is;
* `Draft.write` — the result of an action in the draft, or what becomes of its place if it failed;
* `Workshop.round`, `Workshop.solve` — trying directives until none is left.

Design notes: an action that has come across a place which another one is still to change waits for
the next round, and nothing of the attempt is kept. A round in which all of them wait would repeat
itself, so they depend on one another in a circle and fail. Every other round leaves fewer of them,
and their number is enough fuel.
-/
import DocQuery.Directive.Detect
import DocQuery.Formula.Evaluate

namespace DocQuery

open Time (Moment)

/-- What a draft is worked on with. -/
structure Workshop where
  /-- the name of the document -/
  id : String
  parents : List Document
  options : Options
  now : Moment

namespace Workshop

/-- The context of formulas in a draft as it is. -/
def context (w : Workshop) (draft : Draft) : Context where
  document := .ofParents ⟨w.id, draft.freeze w.id⟩ w.parents
  options := w.options
  now := w.now
  bindings := []

end Workshop

/-- The text that the parts of a string make. -/
def joinParts (c : Context) : List Part → Traced (List String)
  | [] => pure []
  | .text content :: parts => do
    let rest ← joinParts c parts
    pure (content :: rest)
  | .formula f :: parts => do
    let v ← evaluate c f
    let s ← Traced.ofExcept (v.display f.position)
    let rest ← joinParts c parts
    pure (s :: rest)

/-- What an action gives. -/
def Action.compute (c : Context) : Action → Traced Value
  | copyFields f | merge f | value f => evaluate c f
  | interpolate parts => do
    let texts ← joinParts c parts
    pure (.text (String.join texts))

/-- The place that an action is going to change: the object around a member to copy, the array
around an item to merge, and otherwise the place itself. -/
def Action.changes (path : Path) : Action → Option Path
  | copyFields _ | merge _ => path.parent?
  | value _ | interpolate _ => some path

/-- The places that directives are going to change. -/
def pendingPaths (w : Workshop) (draft : Draft) (directives : List Directive) : List Path :=
  let walk := draft.walk
  directives.filterMap fun x =>
    (walk.lookup x.cell).bind fun keys => x.action.changes ⟨w.id, keys⟩

/-- Members that are new: those whose names are neither in `taken` nor among the members before. -/
def freshMembers (taken : List String) : List (String × Node) → List (String × Node)
  | [] => []
  | m :: members =>
    if taken.contains m.1 then freshMembers taken members
    else m :: freshMembers (m.1 :: taken) members

namespace Draft

/-- The draft with more finished values, and their numbers. -/
def addAll (draft : Draft) (position : Position) : List Node → Draft × List Nat
  | [] => (draft, [])
  | n :: ns =>
    let (draft, id) := draft.add (.imported n) position
    let (draft, ids) := draft.addAll position ns
    (draft, id :: ids)

/-- The names of the members of the object `object`. -/
def memberNames (draft : Draft) (object : Nat) : List String :=
  match draft.content? object with
  | some (.object members) => members.map (·.1)
  | _ => []

/-- Where the value of a cell begins in the text. -/
def positionOf (draft : Draft) (id : Nat) : Position :=
  (draft.cells[id]?.map (·.position)).getD .start

/-- The draft without the cell `id` in its container. The root stays. -/
def without (draft : Draft) (id : Nat) : Draft :=
  (draft.remove? id).getD draft

end Draft

/-- The objects that a value offers for copying, when it stands at `position`. -/
def Value.sources (position : Position) (v : Value) : Except Fault (List Node) :=
  let offered :=
    match v with
    | .undefined => some []
    | .nodes ns => some ns
    | .node (.array _ items) => some items
    | .node (.object p members) => some [.object p members]
    | _ => none
  match offered with
  | none => .error (.failed (.copyFromNonObject v.sort) position)
  | some ns =>
    if ns.all fun n => n.members?.isSome then .ok ns
    else .error (.failed .copyFromNonObjects position)

/-- The members that a value offers for copying, when it stands at `position`. -/
def Value.offeredMembers (position : Position) (v : Value) :
    Except Fault (List (String × Node)) :=
  (v.sources position).map fun ns => ns.flatMap fun n => n.members?.getD []

/-- The items that a value gives to the array around it, in the document `document`. -/
def Value.mergedItems (document : String) : Value → List Node
  | .undefined => []
  | .nodes ns => ns
  | .node n => n.spread
  | v => (v.toNode? (.root document)).toList

/-- A value as it is put into the document `document`. A value of a document is put there as it is
and finds its place later. -/
def Value.placedIn (document : String) : Value → Option Node
  | .node n => some n
  | v => v.toNode? (.root document)

/-- A changed draft, and the fault that is reported of the change. -/
abbrev Written := Draft × Option Fault

namespace Draft

/-- Copies members into the place of the cell `id`. If that fails, the member is gone. -/
def writeMembers (draft : Draft) (id : Nat) (outcome : Except Fault Value) : Written :=
  match draft.slot? id with
  | some (.member object name) =>
    let position := draft.positionOf id
    match outcome.bind (Value.offeredMembers position) with
    | .error fault => (draft.spliceMember object name [], some fault)
    | .ok offered =>
      let fresh := freshMembers (copyFieldsName :: draft.memberNames object) offered
      let (draft, ids) := draft.addAll position (fresh.map (·.2))
      (draft.spliceMember object name ((fresh.map (·.1)).zip ids), none)
  | _ => (draft, some (.broken .copyFieldsOutsideObject))

/-- Puts items into the place of the cell `id`. If that fails, the item is gone. -/
def writeItems (w : Workshop) (draft : Draft) (id : Nat) (outcome : Except Fault Value) : Written :=
  match outcome with
  | .error fault => (draft.without id, some fault)
  | .ok v =>
    let (extended, ids) := draft.addAll (draft.positionOf id) (v.mergedItems w.id)
    match extended.splice id ids with
    | .ok spliced => (spliced, none)
    | .error fault => (extended, some fault)

/-- Puts a value into the place of the cell `id`, for the formula that stands at `position`. If that
fails, the string stays. -/
def writeValue (w : Workshop) (draft : Draft) (id : Nat) (position : Position)
    (outcome : Except Fault Value) : Written :=
  match outcome with
  | .error fault => (draft, some fault)
  | .ok v =>
    match v.placedIn w.id with
    | some n => (draft.setContent id (.imported n), none)
    | none =>
      if w.options.removesUndefined then
        if id = draft.root then (draft.setContent id (.scalar .null), none)
        else (draft.without id, none)
      else (draft, some (.failed .undefinedValue position))

/-- Puts a text into the place of the cell `id`. If that fails, the string stays. -/
def writeText (draft : Draft) (id : Nat) (outcome : Except Fault Value) : Written :=
  match outcome with
  | .error fault => (draft, some fault)
  | .ok v => (draft.setContent id (.scalar (.quoted ((v.atom?.map Atom.render).getD ""))), none)

/-- The result of a directive in the draft. -/
def write (w : Workshop) (draft : Draft) (x : Directive) (outcome : Except Fault Value) : Written :=
  match x.action with
  | .copyFields _ => draft.writeMembers x.cell outcome
  | .merge _ => draft.writeItems w x.cell outcome
  | .value f => draft.writeValue w x.cell f.position outcome
  | .interpolate _ => draft.writeText x.cell outcome

end Draft

namespace Workshop

/-- The state of the work: the draft, and the faults so far. -/
structure State where
  draft : Draft
  faults : List Fault

/-- The state after the result of a directive has been written. -/
def State.write (w : Workshop) (s : State) (x : Directive) (outcome : Except Fault Value) : State :=
  let (draft, fault) := s.draft.write w x outcome
  ⟨draft, s.faults ++ fault.toList⟩

/-- Tries directives one after the other. Gives back those that have to wait, behind those in
`deferred`, which have had to wait before. -/
def round (w : Workshop) (s : State) (deferred : List Directive) :
    List Directive → State × List Directive
  | [] => (s, deferred)
  | x :: rest =>
    if s.draft.isAttached x.cell then
      let computed := x.action.compute (w.context s.draft)
      if computed.touches (pendingPaths w s.draft (deferred ++ rest)) then
        w.round s (deferred ++ [x]) rest
      else
        w.round (s.write w x computed.outcome) deferred rest
    else
      w.round s deferred rest

/-- The fault of a directive that waits for itself. -/
def circularity (draft : Draft) (x : Directive) : Fault :=
  .failed .circularReference (x.action.position?.getD (draft.positionOf x.cell))

/-- Lets directives fail that wait for one another. -/
def failAll (w : Workshop) (s : State) : List Directive → State
  | [] => s
  | x :: rest =>
    if s.draft.isAttached x.cell then
      w.failAll (s.write w x (.error (circularity s.draft x))) rest
    else
      w.failAll s rest

/-- Tries directives until none is left. -/
def solve (w : Workshop) : (fuel : Nat) → State → List Directive → State
  | 0, s, _ => s
  | _ + 1, s, [] => s
  | fuel + 1, s, waiting =>
    let (next, deferred) := w.round s [] waiting
    if deferred.length = waiting.length then w.failAll next deferred
    else w.solve fuel next deferred

/-- The draft with all its directives carried out, and the faults of those that failed; or the
faults of those that are malformed. -/
def run (w : Workshop) (d : Dialect) (draft : Draft) : Except (List Fault) State := do
  let directives ← detect d draft
  .ok (w.solve directives.length ⟨draft, []⟩ directives)

end Workshop

end DocQuery
