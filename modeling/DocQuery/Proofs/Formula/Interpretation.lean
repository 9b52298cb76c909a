/-
Expressions interpreted as they are written.

* `Environment` — what the names at the beginning of lookups stand for, and `Environment.enter`,
  which binds the parameters of a lambda for one item;
* `Expr.place`, `Expr.kind` — where the value of an expression comes from, and what is known of it
  without its names;
* `Sense` — an expression as the operation around it sees it, and what operations, functions
  and steps of lookups make of those;
* `Expr.reach`, `Expr.interpret` — the interpretation of a syntax tree in an environment.

Design notes: nothing is resolved beforehand. A lambda is interpreted for each item anew, in the
environment around it with its own parameters in front; that environment is all that there is to a
scope, so it is back as soon as the lambda is left. A lookup carries the value that it has reached
along the chain of names, and what is seen on the way is seen here too. Expressions that have no
formula are refused, whatever is wrong with them.
-/
import DocQuery.Formula.Compile
import DocQuery.Formula.Evaluate

namespace DocQuery

open Time (Moment)

/-! ### Environments -/

/-- What a name at the beginning of a lookup stands for. -/
inductive Referent where
  | property (name : String)
  /-- an item that a lambda has been entered for -/
  | item (value : Node)
  /-- the position of such an item -/
  | index (position : Nat)

/-- What the names at the beginning of lookups stand for. -/
def Environment : Type := String → Referent

namespace Environment

/-- Outside of all lambdas, names are those of properties. -/
def outermost : Environment := .property

/-- The environment inside a lambda that is entered for an item: the first parameter is the item,
the second one its index. All other names are what they are outside. -/
def enter (ρ : Environment) (parameters : List String) (item : Node × Nat) : Environment :=
  fun name =>
    match parameters.idxOf? name with
    | some 0 => .item item.1
    | some _ => .index item.2
    | none => ρ name

end Environment

/-- What expressions are interpreted in, apart from the names in them. -/
structure World where
  vocabulary : Vocabulary
  document : Document
  options : Options
  now : Moment

/-- The world of a context. The lambdas that are active there are left out. -/
def Context.world (c : Context) (v : Vocabulary) : World := ⟨v, c.document, c.options, c.now⟩

/-- What becomes of an expression that has no formula, at `position`. -/
def refused {α : Type} (position : Position) : Traced α :=
  Traced.ofExcept (.error (misplaced position))

/-! ### What shows without any values -/

/-- The kind of what a function makes of its arguments. -/
def FunctionMeaning.kind : FunctionMeaning → Kind
  | aggregate a => a.kind
  | unary f => f.kind
  | test _ => .boolean
  | concatenate => .text
  | choose => .any
  | now => .moment
  | operation o => o.kind

/-- The kind of what an operator makes of operands of these kinds. -/
def BinaryMeaning.kind (left right : Kind) : BinaryMeaning → Kind
  | operation o => o.kind
  | both | either => .boolean
  | fallback => if right.type?.isSome then right else left
  | custom o => o.kind

/-- The kind of what an operator makes of an operand of this kind. -/
def OperandMeaning.kind (operand : Kind) : OperandMeaning → Kind
  | apply f => f.kind
  | assert => operand

namespace Expr

/-- Where the chain of names stands that an expression belongs to or begins. -/
def head : Expr → Position
  | before o operand p | after o operand p => if o.name = pathOperator then operand.head else p
  | binary o left _ p => if o.name = pathOperator then left.head else p
  | e => e.position

/-- Where the value of an expression comes from. Parentheses are looked through. -/
def place : Expr → Position
  | group inner _ => inner.place
  | before o operand p | after o operand p => if o.name = pathOperator then operand.place else p
  | binary o left _ p => if o.name = pathOperator then left.head else p
  | e => e.position

/-- What an expression announces of its value. -/
def kind (v : Vocabulary) : Expr → Kind
  | name n _ =>
    match Qualifier.ofName? n, v.constants.lookup n with
    | none, some x => x.kind
    | _, _ => .found
  | number _ _ => .number
  | text content _ =>
    match v.texts.lookup content with
    | some (some x) => x.kind
    | _ => .text
  | index _ _ _ | lambda _ _ _ => .found
  | group inner _ => inner.kind v
  | before o operand _ =>
    if o.name = pathOperator then operand.kind v
    else (v.before.lookup o.name).elim .any (OperandMeaning.kind (operand.kind v))
  | after o operand _ =>
    if o.name = pathOperator then operand.kind v
    else (v.after.lookup o.name).elim .any (OperandMeaning.kind (operand.kind v))
  | binary o left right _ =>
    if o.name = pathOperator then .found
    else (v.binary.lookup o.name).elim .any (BinaryMeaning.kind (left.kind v) (right.kind v))
  | call n _ _ => (v.functions.lookup n).elim .any FunctionMeaning.kind

end Expr

/-! ### Operations -/

/-- An expression as the operation around it sees it. It has its value each time that it is asked
for. -/
structure Sense where
  value : Traced Value
  position : Position
  kind : Kind

namespace Sense

/-- The value together with the place where it comes from. -/
def operand (a : Sense) : Traced Operand := do
  let v ← a.value
  pure ⟨v, a.position⟩

/-- The values of operands, each of them as a text. -/
def texts : List Sense → Traced (List String)
  | [] => pure []
  | a :: as => do
    let v ← a.value
    let s ← Traced.ofExcept (v.toText a.position)
    let rest ← texts as
    pure (s :: rest)

/-- The values of operands, each of them as one of a given type. -/
def converted (options : Options) (type : ScalarType) : List Sense → Traced (List Value)
  | [] => pure []
  | a :: as => do
    let v ← a.value
    let v ← Traced.ofExcept (v.expect options type a.position)
    let rest ← converted options type as
    pure (v :: rest)

/-- What the positions that operands give lead to, one inside the other. -/
def indexed (isTracked : Bool) (view : View) : List Sense → Traced View
  | [] => pure view
  | a :: as => do
    let x ← a.operand
    let index ← Traced.ofExcept x.index
    Traced.see (unnoticed isTracked (view.counted index) false)
    indexed isTracked (index.elim (.single none) fun i => view.item i) as

/-- The value that the positions that operands give lead to, from items on. -/
def located (isTracked : Bool) (items : List Node) (found : Option Node) :
    List Sense → Traced (Option Node)
  | [] => pure found
  | a :: as => do
    let x ← a.operand
    let index ← Traced.ofExcept x.index
    Traced.see (unnoticed isTracked ((View.many items).counted index) false)
    match index.bind fun i => items[i]? with
    | none => pure none
    | some n => located isTracked (n.items?.getD []) (some n) as

end Sense

/-- The value of an operator at `position` with its operand. -/
def OperandMeaning.interpret (w : World) (position : Position) (a : Sense) :
    OperandMeaning → Traced Value
  | apply f => do
    let x ← a.operand
    Traced.ofExcept (f.run w.options x)
  | assert => do
    let v ← a.value
    Traced.ofExcept (v.asserted position)

/-- The value of an operator at `position` with its operands. -/
def BinaryMeaning.interpret (w : World) (position : Position) (a b : Sense) :
    BinaryMeaning → Traced Value
  | operation o => do
    let x ← a.operand
    let y ← b.operand
    Traced.ofExcept (o.run w.options position x y)
  | both => do
    let v ← a.value
    if ← Traced.ofExcept (v.toBoolean a.position) then
      let v ← b.value
      let holds ← Traced.ofExcept (v.toBoolean b.position)
      pure (.boolean holds)
    else
      pure (.boolean false)
  | either => do
    let v ← a.value
    if ← Traced.ofExcept (v.toBoolean a.position) then
      pure (.boolean true)
    else
      let v ← b.value
      let holds ← Traced.ofExcept (v.toBoolean b.position)
      pure (.boolean holds)
  | fallback => do
    let v ← a.value
    if v.isMissing then
      b.value
    else
      match b.kind.type? with
      | none => pure v
      | some type =>
        match v.convert? w.options type with
        | some converted => pure converted
        | none => b.value
  | custom o => do
    let vs ← Sense.converted w.options o.operandType [a, b]
    pure (o.compute vs)

/-- The value of a function, called at `position`, that is no aggregate. -/
def FunctionMeaning.interpret (w : World) (position : Position) :
    FunctionMeaning → List Sense → Traced Value
  | unary f, [a] => do
    let x ← a.operand
    Traced.ofExcept (f.run w.options x)
  | test t, [a, b] => do
    let v ← a.value
    let whole ← Traced.ofExcept (v.toText a.position)
    let v ← b.value
    let part ← Traced.ofExcept (v.toText b.position)
    pure (.boolean (t.holds whole part))
  | concatenate, a :: b :: rest => do
    let ss ← Sense.texts (a :: b :: rest)
    pure (.text (String.join ss))
  | choose, [a, b, c] => do
    let v ← a.value
    if ← Traced.ofExcept (v.toBoolean a.position) then
      b.value
    else
      c.value
  | now, [] => pure (.moment w.now)
  | operation o, as => do
    let vs ← Sense.converted w.options o.operandType as
    pure (o.compute vs)
  | _, _ => refused position

/-- The value of an aggregate of a collection, with the value of its lambda for each item if it has
one. -/
def Aggregate.interpret (a : Aggregate) (collection : Sense)
    (valueOf : Option (Node × Nat → Traced Operand)) : Traced Value := do
  let v ← collection.value
  let items ← Traced.ofExcept (v.items a.name collection.position)
  match valueOf with
  | none => a.run collection.position items
  | some valueOf => a.runWith valueOf items

/-! ### Lookups -/

/-- What the beginning of a chain of names has reached. -/
inductive Reached where
  /-- a qualifier, before the name that it qualifies -/
  | qualifier (qualifier : Qualifier)
  /-- a value, of a document or computed; only lookups in documents are tracked -/
  | value (value : Value) (isTracked : Bool)

/-- One step of a lookup. -/
def Walk : Type := (isTracked : Bool) → View → Traced View

namespace Walk

/-- To the members of a name. -/
def member (name : String) : Walk := fun isTracked view => do
  Traced.see (unnoticed isTracked view.searched false)
  pure (view.member name)

/-- To positions, one inside the other. -/
def index (indexes : List Sense) : Walk := fun isTracked view =>
  Sense.indexed isTracked view indexes

/-- To positions, the first of them in a collection. -/
def positions (indexes : List Sense) (position : Position) : Walk := fun isTracked view => do
  let items ← Traced.ofExcept (view.toValue.items "At" position)
  let found ← Sense.located isTracked items none indexes
  pure (.single found)

/-- To an arrangement of the items. -/
def arrange (arrangement : Arrangement) (position : Position) : Walk := fun isTracked view => do
  let items ← Traced.ofExcept (view.toValue.items arrangement.name position)
  Traced.see (arrangement.surveyed isTracked items)
  pure (arrangement.select items)

/-- Through the items with a lambda. -/
def through (selector : LambdaSelector) (valueOf : Node × Nat → Traced Operand)
    (position : Position) : Walk := fun isTracked view => do
  let items ← Traced.ofExcept (view.toValue.items selector.name position)
  Traced.see (unnoticed isTracked items false)
  selector.select valueOf items

end Walk

namespace World

/-- The first property of a name in the documents that are searched. -/
def property (w : World) (name : String) (scope : Scope) : Traced Value := do
  Traced.see (unnoticed true (if scope = .inherited then [] else [w.document.root]) false)
  pure (.ofNode? (Page.firstMember? name (scope.pages w.document)))

/-- What a qualifier is by itself. -/
def root (w : World) : Qualifier → Value
  | .this => .node w.document.root
  | .parent => .ofNode? (w.document.ancestors.head?.map (·.root))

/-- The value that a name stands for. -/
def resolve (w : World) : Referent → Traced Value
  | .property name => w.property name .all
  | .item n => pure (.node n)
  | .index i => pure (.number (Number.ofInt i))

end World

namespace Reached

/-- Takes a step. -/
def step (w : World) (walk : Walk) (r : Reached) : Traced Reached :=
  let go (v : Value) (isTracked : Bool) : Traced Reached := do
    let view := View.ofValue (.root w.document.id) v
    Traced.see (if isTracked then sightingsOf view.nodes false else [])
    let next ← walk isTracked view
    pure (.value next.toValue isTracked)
  match r with
  | qualifier q => go (w.root q) true
  | value v isTracked => go v isTracked

/-- Takes the step to a name. A qualifier says where it is searched. -/
def member (w : World) (name : String) : Reached → Traced Reached
  | qualifier q => do
    let v ← w.property name q.scope
    pure (.value v true)
  | r => r.step w (.member name)

/-- The value at the end of the chain. -/
def finish (w : World) : Reached → Traced Value
  | qualifier q => do
    Traced.see (w.root q).sightings
    pure (w.root q)
  | value v isTracked => do
    Traced.see (if isTracked then v.sightings else [])
    pure v

end Reached

/-- A computed value at the beginning of a chain. -/
def Traced.asReached (x : Traced Value) : Traced Reached := do
  let v ← x
  pure (.value v false)

namespace World

/-- A name at the beginning of a chain: a qualifier, a constant, or what it stands for. -/
def begin (w : World) (ρ : Environment) (name : String) : Traced Reached :=
  match Qualifier.ofName? name with
  | some q => pure (.qualifier q)
  | none =>
    match w.vocabulary.constants.lookup name with
    | some v => pure (.value v false)
    | none => do
      let v ← w.resolve (ρ name)
      pure (.value v true)

/-- The value of a quoted text. -/
def text (w : World) (content : String) (position : Position) : Traced Value :=
  match w.vocabulary.texts.lookup content with
  | none => pure (.text content)
  | some (some v) => pure v
  | some none => refused position

end World

/-- The value of a number as it is written. -/
def numberOf (digits : String) (position : Position) : Traced Value :=
  match Number.readNumber? digits.toList with
  | some x => pure (.number x)
  | none => refused position

/-! ### Arguments -/

/-- An argument of a function or a selector: its sense, and its value for each item if it is a
lambda. -/
structure Argument where
  sense : Sense
  valueFor : Node × Nat → Traced Operand

/-- The value of the function `name`, called at `position`. -/
def World.call (w : World) (name : String) (position : Position) (arguments : List Argument) :
    Traced Value :=
  match w.vocabulary.functions.lookup name with
  | none => refused position
  | some (.aggregate a) =>
    match arguments with
    | [collection] => a.interpret collection.sense none
    | [collection, lambda] => a.interpret collection.sense (some lambda.valueFor)
    | _ => refused position
  | some meaning => meaning.interpret w position (arguments.map (·.sense))

/-- Takes the step of the selector `name` that stands at `position`. -/
def Reached.select (w : World) (name : String) (position : Position) (arguments : List Argument)
    (r : Reached) : Traced Reached :=
  match w.vocabulary.selectors.lookup name with
  | none => refused position
  | some meaning =>
    match meaning, arguments with
    | .lambda selector, [lambda] | .optionalLambda selector _, [lambda] =>
      r.step w (.through selector lambda.valueFor position)
    | .optionalLambda _ arrangement, [] | .arrangement arrangement, [] =>
      r.step w (.arrange arrangement position)
    | .positions, first :: rest =>
      r.step w (.positions ((first :: rest).map (·.sense)) position)
    | .custom select, [] => r.step w (.arrange (.custom name select) position)
    | _, _ => refused position

/-! ### Expressions -/

/-- The sense of an expression, from what its own chain has reached. -/
def Expr.sense (w : World) (e : Expr) (reached : Traced Reached) : Sense :=
  ⟨reached >>= Reached.finish w, e.place, e.kind w.vocabulary⟩

mutual

/-- What an expression reaches from where the chain before it has come, if there is one. -/
def Expr.reach (w : World) (ρ : Environment) (before : Option Reached) : Expr → Traced Reached
  | .name n _ =>
    match before with
    | none => w.begin ρ n
    | some r => r.member w n
  | .text content p =>
    match before with
    | none => (w.text content p).asReached
    | some r => r.member w content
  | .number digits p =>
    match before with
    | none => (numberOf digits p).asReached
    | some _ => refused p
  | .index n indexes _ =>
    let walk := Walk.index ((readArguments w ρ indexes).map (·.sense))
    match before with
    | none => do
      let v ← w.resolve (ρ n)
      (Reached.value v true).step w walk
    | some r => do
      let r ← r.member w n
      r.step w walk
  | .group inner p =>
    match before with
    | none => (inner.sense w (inner.reach w ρ none)).value.asReached
    | some _ => refused p
  | .lambda _ _ p => refused p
  | .before o operand p =>
    if o.name = pathOperator then operand.reach w ρ before
    else
      match before, w.vocabulary.before.lookup o.name with
      | none, some meaning =>
        (meaning.interpret w p (operand.sense w (operand.reach w ρ none))).asReached
      | _, _ => refused p
  | .after o operand p =>
    if o.name = pathOperator then operand.reach w ρ before
    else
      match before, w.vocabulary.after.lookup o.name with
      | none, some meaning =>
        (meaning.interpret w p (operand.sense w (operand.reach w ρ none))).asReached
      | _, _ => refused p
  | .binary o left right p =>
    if o.name = pathOperator then do
      let r ← left.reach w ρ before
      right.reach w ρ (some r)
    else
      match before, w.vocabulary.binary.lookup o.name with
      | none, some meaning =>
        let a := left.sense w (left.reach w ρ none)
        let b := right.sense w (right.reach w ρ none)
        (meaning.interpret w p a b).asReached
      | _, _ => refused p
  | .call n arguments p =>
    match before with
    | none => (w.call n p (readArguments w ρ arguments)).asReached
    | some r => r.select w n p (readArguments w ρ arguments)

/-- The value of a lambda for an item: that of its body, with the parameters bound. -/
def Expr.interpretFor (w : World) (ρ : Environment) (item : Node × Nat) : Expr → Traced Operand
  | .lambda parameters body _ =>
    let inner := ρ.enter (parameters.map (·.name)) item
    (body.sense w (body.reach w inner none)).operand
  | e => refused e.position

/-- Expressions as arguments. -/
def readArguments (w : World) (ρ : Environment) : List Expr → List Argument
  | [] => []
  | e :: es =>
    ⟨e.sense w (e.reach w ρ none), fun item => e.interpretFor w ρ item⟩ ::
      readArguments w ρ es

end

/-- The value of an expression in an environment. -/
def Expr.interpret (w : World) (ρ : Environment) (e : Expr) : Traced Value :=
  (e.sense w (e.reach w ρ none)).value

/-! ### Accepted expressions -/

namespace Expr

variable {w : World} {ρ : Environment} {o : Operator} {operand left right : Expr} {n : String}
  {p : Position}

theorem reach_call_none (arguments : List Expr) :
    (call n arguments p).reach w ρ none = (w.call n p (readArguments w ρ arguments)).asReached :=
  rfl

theorem reach_call_some (r : Reached) (arguments : List Expr) :
    (call n arguments p).reach w ρ (some r) = r.select w n p (readArguments w ρ arguments) :=
  rfl

theorem reach_before {meaning : OperandMeaning} (hpath : o.name ≠ pathOperator)
    (hmeaning : w.vocabulary.before.lookup o.name = some meaning) :
    (before o operand p).reach w ρ none =
      (meaning.interpret w p (operand.sense w (operand.reach w ρ none))).asReached := by
  show (if o.name = pathOperator then _ else _) = _
  simp only [if_neg hpath, hmeaning]

theorem reach_after {meaning : OperandMeaning} (hpath : o.name ≠ pathOperator)
    (hmeaning : w.vocabulary.after.lookup o.name = some meaning) :
    (after o operand p).reach w ρ none =
      (meaning.interpret w p (operand.sense w (operand.reach w ρ none))).asReached := by
  show (if o.name = pathOperator then _ else _) = _
  simp only [if_neg hpath, hmeaning]

theorem reach_binary {meaning : BinaryMeaning} (hpath : o.name ≠ pathOperator)
    (hmeaning : w.vocabulary.binary.lookup o.name = some meaning) :
    (binary o left right p).reach w ρ none =
      (meaning.interpret w p (left.sense w (left.reach w ρ none))
        (right.sense w (right.reach w ρ none))).asReached := by
  show (if o.name = pathOperator then _ else _) = _
  simp only [if_neg hpath, hmeaning]

theorem reach_aggregate {a : Aggregate} {collection : Expr}
    (hmeaning : w.vocabulary.functions.lookup n = some (.aggregate a)) :
    (call n [collection] p).reach w ρ none =
      (a.interpret (collection.sense w (collection.reach w ρ none)) none).asReached := by
  rw [reach_call_none, World.call, hmeaning]
  rfl

theorem reach_aggregateBy {a : Aggregate} {collection lambda : Expr}
    (hmeaning : w.vocabulary.functions.lookup n = some (.aggregate a)) :
    (call n [collection, lambda] p).reach w ρ none =
      (a.interpret (collection.sense w (collection.reach w ρ none))
        (some fun item => lambda.interpretFor w ρ item)).asReached := by
  rw [reach_call_none, World.call, hmeaning]
  rfl

theorem reach_call {meaning : FunctionMeaning} {arguments : List Expr}
    (hmeaning : w.vocabulary.functions.lookup n = some meaning)
    (hne : ∀ a, meaning ≠ .aggregate a) :
    (call n arguments p).reach w ρ none =
      (meaning.interpret w p ((readArguments w ρ arguments).map (·.sense))).asReached := by
  rw [reach_call_none, World.call, hmeaning]
  cases meaning with
  | aggregate a => exact absurd rfl (hne a)
  | unary | test | concatenate | choose | now | operation => rfl

theorem reach_through {r : Reached} {selector : LambdaSelector} {lambda : Expr}
    (hmeaning : w.vocabulary.selectors.lookup n = some (.lambda selector) ∨
      ∃ otherwise, w.vocabulary.selectors.lookup n = some (.optionalLambda selector otherwise)) :
    (call n [lambda] p).reach w ρ (some r) =
      r.step w (.through selector (fun item => lambda.interpretFor w ρ item) p) := by
  rcases hmeaning with hmeaning | ⟨otherwise, hmeaning⟩ <;>
  · rw [reach_call_some, Reached.select, hmeaning]
    rfl

theorem reach_arrange {r : Reached} {arrangement : Arrangement}
    (hmeaning : w.vocabulary.selectors.lookup n = some (.arrangement arrangement) ∨
      ∃ selector, w.vocabulary.selectors.lookup n = some (.optionalLambda selector arrangement)) :
    (call n [] p).reach w ρ (some r) = r.step w (.arrange arrangement p) := by
  rcases hmeaning with hmeaning | ⟨selector, hmeaning⟩ <;>
  · rw [reach_call_some, Reached.select, hmeaning]
    rfl

theorem reach_positions {r : Reached} {first : Expr} {rest : List Expr}
    (hmeaning : w.vocabulary.selectors.lookup n = some .positions) :
    (call n (first :: rest) p).reach w ρ (some r) =
      r.step w
        (.positions ((readArguments w ρ (first :: rest)).map (·.sense)) p) := by
  rw [reach_call_some, Reached.select, hmeaning]
  rfl

theorem reach_custom {r : Reached} {select : List Node → View}
    (hmeaning : w.vocabulary.selectors.lookup n = some (.custom select)) :
    (call n [] p).reach w ρ (some r) = r.step w (.arrange (.custom n select) p) := by
  rw [reach_call_some, Reached.select, hmeaning]
  rfl

end Expr

end DocQuery
