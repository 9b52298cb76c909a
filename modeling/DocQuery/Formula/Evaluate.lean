/-
The value of a formula.

* `Context` — what a formula is evaluated against, with the lambdas that are active;
* `Start.resolve` — the value that a lookup begins with;
* `evaluate` — the value of a formula, with a trace of what was looked up.

Design notes: the recursion is on the formula, and going through items is left to functions that
know nothing of formulas. A lookup that begins in a document passes through every value between its
start and its result; one that begins with a computed value leaves no trace of its own, only that of
what it begins with. What a lookup searches or counts besides is not noticed. Operands are evaluated
from left to right, and each is converted before the next one is looked at where a function says so.
-/
import DocQuery.Document
import DocQuery.Formula.Tree

namespace DocQuery

open Time (Moment)

/-- The item that a lambda is applied to. -/
structure Binding where
  lambda : Nat
  item : Node
  index : Nat

/-- What a formula is evaluated against. -/
structure Context where
  document : Document
  options : Options
  now : Moment
  /-- the lambdas that are active, the innermost first -/
  bindings : List Binding

namespace Context

/-- The context inside a lambda. -/
def bind (c : Context) (lambda : Nat) (item : Node) (index : Nat) : Context :=
  { c with bindings := ⟨lambda, item, index⟩ :: c.bindings }

/-- The innermost binding of a lambda. -/
def binding? (c : Context) (lambda : Nat) : Option Binding :=
  c.bindings.find? fun b => b.lambda == lambda

end Context

/-- The member `name` of the first of several pages that has it. -/
def Page.firstMember? (name : String) (pages : List Page) : Option Node :=
  pages.findSome? fun page => page.root.member? name

/-- A value of a document, where it was found. -/
def Value.ofNode? : Option Node → Value
  | some n => .node n
  | none => .undefined

/-- The pages in which a name is searched. -/
def Scope.pages (d : Document) : Scope → List Page
  | .all => d.pages
  | .own => [d.toPage]
  | .inherited => d.ancestors

/-- The value that a lookup begins with. -/
def Start.resolve (c : Context) : Start → Except Fault Value
  | property name scope => .ok (.ofNode? (Page.firstMember? name (scope.pages c.document)))
  | this => .ok (.node c.document.root)
  | parent => .ok (.ofNode? (c.document.ancestors.head?.map (·.root)))
  | parameter lambda name role =>
    match c.binding? lambda with
    | none => .error (.broken (.unboundParameter name))
    | some b =>
      match role with
      | .item => .ok (.node b.item)
      | .index => .ok (.number (Number.ofInt b.index))

/-- What a lookup searches before it begins: the root of the current document, if a name is looked
up there. -/
def Start.searched (c : Context) : Start → List Node
  | property _ .all | property _ .own => [c.document.root]
  | property _ .inherited | this | parent | parameter _ _ _ => []

/-- The number that stands where an index is expected: one without a fraction. -/
def Operand.wholeNumber (a : Operand) : Except Fault Float := do
  let x ← a.number
  if !Number.isIntegral x then .error (.failed (.fractionalIndex x) a.position) else .ok x

/-- The position that an index behind a name gives. There is none unless it is zero or more. -/
def Operand.index (a : Operand) : Except Fault (Option Nat) := do
  let x ← a.wholeNumber
  .ok (if 0 ≤ x then some (Number.integerPart x).toNat else none)

/-- The position that an argument of `At` gives. There is none if it is less than zero. -/
def Operand.indexOfAt (a : Operand) : Except Fault (Option Nat) := do
  let x ← a.wholeNumber
  .ok (if x < 0 then none else some (Number.integerPart x).toNat)

/-- What the result of a lambda for the item at `path` contributes to a projection. -/
def Value.contribution (path : Path) : Value → List Node
  | .undefined => []
  | .node n => n.spread
  | .nodes ns => ns
  | v => (v.toNode? path).toList

/-- The items that pass a test. -/
def filterItems (test : Node × Nat → Traced Bool) : List (Node × Nat) → Traced (List Node)
  | [] => pure []
  | item :: items => do
    let passes ← test item
    let rest ← filterItems test items
    pure (if passes then item.1 :: rest else rest)

/-- What the items contribute, one after the other. -/
def projectItems (project : Node × Nat → Traced Value) : List (Node × Nat) → Traced (List Node)
  | [] => pure []
  | item :: items => do
    let v ← project item
    let rest ← projectItems project items
    pure (v.contribution item.1.path ++ rest)

/-- The first item that passes a test. -/
def findItem (test : Node × Nat → Traced Bool) : List (Node × Nat) → Traced (Option Node)
  | [] => pure none
  | item :: items => do
    let passes ← test item
    if passes then pure (some item.1) else findItem test items

/-- A test of items by the truth of a lambda. -/
def testOf (valueOf : Node × Nat → Traced Operand) (item : Node × Nat) : Traced Bool := do
  let a ← valueOf item
  Traced.ofExcept a.boolean

/-- What a selector makes of items, with the value of its lambda for each of them. -/
def LambdaSelector.select (valueOf : Node × Nat → Traced Operand) (items : List Node) :
    LambdaSelector → Traced View
  | .filter => do
    let chosen ← filterItems (testOf valueOf) items.zipIdx
    pure (.many chosen)
  | .project => do
    let projected ← projectItems (fun item => do pure (← valueOf item).value) items.zipIdx
    pure (.many projected)
  | .first => do
    let found ← findItem (testOf valueOf) items.zipIdx
    pure (.single found)
  | .last => do
    let found ← findItem (testOf valueOf) items.zipIdx.reverse
    pure (.single found)

/-- The operand of an assertion at `position`, unless there is nothing to it. -/
def Value.asserted (position : Position) (v : Value) : Except Fault Value :=
  if v.isMissing then .error (.failed (.assertionFailed v.sort) position)
  else
    match v with
    | .nodes [] => .error (.failed .assertionOfEmpty position)
    | _ => .ok v

mutual

/-- The value of a formula. -/
def evaluate (c : Context) : Formula → Traced Value
  | .constant v _ => pure v
  | .apply f operand _ => do
    let v ← evaluate c operand
    Traced.ofExcept (f.run c.options ⟨v, operand.position⟩)
  | .assert operand position => do
    let v ← evaluate c operand
    Traced.ofExcept (v.asserted position)
  | .binary o left right position => do
    let a ← evaluate c left
    let b ← evaluate c right
    Traced.ofExcept (o.run c.options position ⟨a, left.position⟩ ⟨b, right.position⟩)
  | .both left right _ => do
    let a ← evaluate c left
    if ← Traced.ofExcept (a.toBoolean left.position) then
      let b ← evaluate c right
      let holds ← Traced.ofExcept (b.toBoolean right.position)
      pure (.boolean holds)
    else
      pure (.boolean false)
  | .either left right _ => do
    let a ← evaluate c left
    if ← Traced.ofExcept (a.toBoolean left.position) then
      pure (.boolean true)
    else
      let b ← evaluate c right
      let holds ← Traced.ofExcept (b.toBoolean right.position)
      pure (.boolean holds)
  | .fallback value alternative _ => do
    let v ← evaluate c value
    if v.isMissing then
      evaluate c alternative
    else
      match alternative.kind.type? with
      | none => pure v
      | some type =>
        match v.convert? c.options type with
        | some converted => pure converted
        | none => evaluate c alternative
  | .test t whole part _ => do
    let a ← evaluate c whole
    let a ← Traced.ofExcept (a.toText whole.position)
    let b ← evaluate c part
    let b ← Traced.ofExcept (b.toText part.position)
    pure (.boolean (t.holds a b))
  | .concatenate parts _ => do
    let texts ← evaluateTexts c parts
    pure (.text (String.join texts))
  | .choose condition yes no _ => do
    let v ← evaluate c condition
    if ← Traced.ofExcept (v.toBoolean condition.position) then
      evaluate c yes
    else
      evaluate c no
  | .now _ => pure (.moment c.now)
  | .aggregate a collection _ => do
    let v ← evaluate c collection
    let items ← Traced.ofExcept (v.items a.name collection.position)
    a.run collection.position items
  | .aggregateBy a collection lambda body _ => do
    let v ← evaluate c collection
    let items ← Traced.ofExcept (v.items a.name collection.position)
    a.runWith (fun item => do
      let result ← evaluate (c.bind lambda item.1 item.2) body
      pure ⟨result, body.position⟩) items
  | .lookup start steps _ => do
    Traced.see (unnoticed true (start.searched c) false)
    let first ← Traced.ofExcept (start.resolve c)
    if steps.isEmpty then
      Traced.see first.sightings
      pure first
    else
      let view ← evaluateSteps c true (.ofValue (.root c.document.id) first) steps
      Traced.see view.toValue.sightings
      pure view.toValue
  | .follow base steps _ => do
    let first ← evaluate c base
    if steps.isEmpty then
      pure first
    else
      let view ← evaluateSteps c false (.ofValue (.root c.document.id) first) steps
      pure view.toValue
  | .operation o arguments _ => do
    let values ← evaluateAs c o.operandType arguments
    pure (o.compute values)

/-- The values of formulas, each of them as a text. -/
def evaluateTexts (c : Context) : List Formula → Traced (List String)
  | [] => pure []
  | f :: fs => do
    let v ← evaluate c f
    let s ← Traced.ofExcept (v.toText f.position)
    let rest ← evaluateTexts c fs
    pure (s :: rest)

/-- The values of formulas, each of them as one of a given type. -/
def evaluateAs (c : Context) (type : ScalarType) : List Formula → Traced (List Value)
  | [] => pure []
  | f :: fs => do
    let v ← evaluate c f
    let v ← Traced.ofExcept (v.expect c.options type f.position)
    let rest ← evaluateAs c type fs
    pure (v :: rest)

/-- What the steps of a lookup lead to. The values passed on the way are seen if the lookup is
tracked. -/
def evaluateSteps (c : Context) (isTracked : Bool) (view : View) : List Step → Traced View
  | [] => pure view
  | step :: steps => do
    Traced.see (if isTracked then sightingsOf view.nodes false else [])
    let next ← evaluateStep c isTracked view step
    evaluateSteps c isTracked next steps

/-- What one step of a lookup leads to. -/
def evaluateStep (c : Context) (isTracked : Bool) (view : View) : Step → Traced View
  | .member name => do
    Traced.see (unnoticed isTracked view.searched false)
    pure (view.member name)
  | .index indexes => evaluateIndexes c isTracked view indexes
  | .at indexes position => do
    let items ← Traced.ofExcept (view.toValue.items "At" position)
    let found ← evaluateAt c isTracked items none indexes
    pure (.single found)
  | .arrange arrangement position => do
    let items ← Traced.ofExcept (view.toValue.items arrangement.name position)
    Traced.see (arrangement.surveyed isTracked items)
    pure (arrangement.select items)
  | .through selector lambda body position => do
    let items ← Traced.ofExcept (view.toValue.items selector.name position)
    Traced.see (unnoticed isTracked items false)
    selector.select (fun item => do
      let result ← evaluate (c.bind lambda item.1 item.2) body
      pure ⟨result, body.position⟩) items

/-- What positions lead to, one inside the other. All of them are evaluated. -/
def evaluateIndexes (c : Context) (isTracked : Bool) (view : View) : List Formula → Traced View
  | [] => pure view
  | f :: fs => do
    let v ← evaluate c f
    let index ← Traced.ofExcept (Operand.index ⟨v, f.position⟩)
    Traced.see (unnoticed isTracked (view.counted index) false)
    evaluateIndexes c isTracked (index.elim (.single none) fun i => view.item i) fs

/-- The value that positions lead to, from items on. The first one that leads nowhere is the last
one to be evaluated. -/
def evaluateAt (c : Context) (isTracked : Bool) (items : List Node) (found : Option Node) :
    List Formula → Traced (Option Node)
  | [] => pure found
  | f :: fs => do
    let v ← evaluate c f
    let index ← Traced.ofExcept (Operand.indexOfAt ⟨v, f.position⟩)
    Traced.see (unnoticed isTracked ((View.many items).counted index) false)
    match index.bind fun i => items[i]? with
    | none => pure none
    | some n => evaluateAt c isTracked (n.items?.getD []) (some n) fs

end

end DocQuery
