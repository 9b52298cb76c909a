/-
Operations that do not see how members are arranged.

* `Rearrangement` — a change of values that keeps their sorts, their places, their JSON and what is
  found under each name;
* `Value.map`, `View.map`, … — the change of all values of documents in the data of an evaluation;
* `Rearrangement.search`, `Rearrangement.same`, … — each operation commutes with such a change, so
  that its result is changed alike or, if it is computed, not at all;
* `Vocabulary.Respects` — a vocabulary of which the same is true.

Design notes: a change is a function and not a relation, so a statement about an operation is an
equation, and the equations of a whole evaluation follow by the laws of its monad. What is seen on
the way stays the same, since it consists of places.
-/
import DocQuery.Proofs.Formula.Correspondence
import DocQuery.Proofs.Formula.Interpretation
import DocQuery.Proofs.Formula.Positions
import DocQuery.Proofs.Formula.Tracing

namespace DocQuery

/-- A change of values that only rearranges the members of objects, at any depth: scalars stay,
arrays keep their items in order, and objects have the same members under the same names. -/
structure Rearrangement where
  apply : Node → Node
  scalar (p : Place) (s : Scalar) : apply (.scalar p s) = .scalar p s
  array (p : Place) (items : List Node) : apply (.array p items) = .array p (items.map apply)
  object (p : Place) (members : List (String × Node)) :
    ∃ rearranged, apply (.object p members) = .object p rearranged ∧
      ∀ name, rearranged.lookup name = (members.lookup name).map apply
  toJson (n : Node) : (apply n).toJson = n.toJson

instance : CoeFun Rearrangement fun _ => Node → Node := ⟨Rearrangement.apply⟩

/-- The change that leaves all values as they are. -/
def Rearrangement.refl : Rearrangement where
  apply := id
  scalar _ _ := rfl
  array _ _ := congrArg (Node.array _) (List.map_id _).symm
  object _ members := ⟨members, rfl, fun _ => (Option.map_id_apply).symm⟩
  toJson _ := rfl

/-! ### Data of an evaluation -/

section Data

variable (f : Node → Node)

/-- A value with `f` applied to the values of documents in it. -/
def Value.map : Value → Value
  | node n => node (f n)
  | nodes items => nodes (items.map f)
  | v => v

/-- An operand with `f` applied to the values of documents in it. -/
def Operand.map (a : Operand) : Operand := ⟨a.value.map f, a.position⟩

/-- What a lookup has reached, with `f` applied to it. -/
def View.map : View → View
  | single found => single (found.map f)
  | many items => many (items.map f)

/-- What the beginning of a chain has reached, with `f` applied to it. -/
def Reached.map : Reached → Reached
  | qualifier q => qualifier q
  | value v isTracked => value (v.map f) isTracked

/-- What a name stands for, with `f` applied to an item. -/
def Referent.map : Referent → Referent
  | item n => item (f n)
  | r => r

/-- The sense of an expression, with `f` applied to its value. -/
def Sense.map (a : Sense) : Sense := ⟨Value.map f <$> a.value, a.position, a.kind⟩

/-- An item of a list, with `f` applied to it. -/
def itemMap (item : Node × Nat) : Node × Nat := (f item.1, item.2)

end Data

theorem Value.map_of_isComputed {v : Value} (h : v.isComputed) (f : Node → Node) :
    v.map f = v := by
  cases v with
  | node | nodes => cases h
  | undefined | null | boolean | number | text | moment => rfl

namespace Rearrangement

variable (σ : Rearrangement)

/-! ### Values of documents -/

section Nodes

@[simp] theorem place (n : Node) : (σ n).place = n.place := by
  cases n with
  | object p members =>
    obtain ⟨rearranged, h, -⟩ := σ.object p members
    rw [h]
    rfl
  | array p items =>
    rw [σ.array]
    rfl
  | scalar p s => rw [σ.scalar]

@[simp] theorem path (n : Node) : (σ n).path = n.path := by rw [Node.path, place, Node.path]

@[simp] theorem scalar? (n : Node) : (σ n).scalar? = n.scalar? := by
  cases n with
  | object p members =>
    obtain ⟨rearranged, h, -⟩ := σ.object p members
    rw [h]
    rfl
  | array p items =>
    rw [σ.array]
    rfl
  | scalar p s => rw [σ.scalar]

@[simp] theorem items? (n : Node) : (σ n).items? = n.items?.map (List.map σ) := by
  cases n with
  | object p members =>
    obtain ⟨rearranged, h, -⟩ := σ.object p members
    rw [h]
    rfl
  | array p items =>
    rw [σ.array]
    rfl
  | scalar p s =>
    rw [σ.scalar]
    rfl

@[simp] theorem member? (n : Node) (name : String) :
    (σ n).member? name = (n.member? name).map σ := by
  cases n with
  | object p members =>
    obtain ⟨rearranged, h, hlookup⟩ := σ.object p members
    rw [h]
    exact hlookup name
  | array p items =>
    rw [σ.array]
    rfl
  | scalar p s =>
    rw [σ.scalar]
    rfl

@[simp] theorem sort (n : Node) : (σ n).sort = n.sort := by
  cases n with
  | object p members =>
    obtain ⟨rearranged, h, -⟩ := σ.object p members
    rw [h]
    rfl
  | array p items =>
    rw [σ.array]
    rfl
  | scalar p s => rw [σ.scalar]

@[simp] theorem isNull (n : Node) : (σ n).isNull = n.isNull := by
  rw [Node.isNull, scalar?, Node.isNull]

theorem spread (n : Node) : (σ n).spread = n.spread.map σ := by
  rw [Node.spread, items?, Node.spread]
  cases n.items? <;> rfl

theorem itemsToJson (items : List Node) :
    Node.itemsToJson (items.map σ) = Node.itemsToJson items := by
  induction items with
  | nil => rfl
  | cons n items ih => rw [List.map_cons, Node.itemsToJson, Node.itemsToJson, ih, σ.toJson]

mutual

theorem search (name : String) : (n : Node) → (σ n).search name = (n.search name).map σ
  | .array p items => by rw [σ.array, Node.search, Node.search, searchAll name items]
  | .object p members => by
    have hmember := σ.member? (.object p members) name
    obtain ⟨rearranged, h, -⟩ := σ.object p members
    rw [h] at hmember ⊢
    rw [Node.search, Node.search, hmember]
    cases (Node.object p members).member? name <;> rfl
  | .scalar p s => by
    rw [σ.scalar]
    rfl

theorem searchAll (name : String) : (items : List Node) →
    Node.searchAll name (items.map σ) = (Node.searchAll name items).map σ
  | [] => rfl
  | n :: items => by
    rw [List.map_cons, Node.searchAll, Node.searchAll, search name n, searchAll name items,
      List.map_append]

end

mutual

theorem surrounded : (n : Node) → (σ n).surrounded = n.surrounded.map σ
  | .array p items => by rw [σ.array, Node.surrounded, Node.surrounded, surroundedAll items]
  | .object p members => by
    obtain ⟨rearranged, h, -⟩ := σ.object p members
    rw [h]
    rfl
  | .scalar p s => by
    rw [σ.scalar]
    rfl

theorem surroundedAll : (items : List Node) →
    Node.surroundedAll (items.map σ) = (Node.surroundedAll items).map σ
  | [] => rfl
  | n :: items => by
    rw [List.map_cons, Node.surroundedAll, Node.surroundedAll, surrounded n, surroundedAll items,
      List.map_cons, List.map_append]

end

theorem distinctAfter (seen : List String) (items : List Node) :
    Arrangement.distinctAfter seen (items.map σ) =
      (Arrangement.distinctAfter seen items).map σ := by
  induction items generalizing seen with
  | nil => rfl
  | cons n items ih =>
    rw [List.map_cons, Arrangement.distinctAfter, Arrangement.distinctAfter, σ.toJson]
    split
    · exact ih seen
    · rw [ih, List.map_cons]

end Nodes

/-! ### Sightings -/

section Seen

@[simp] theorem sightingsOf (items : List Node) (isWhole : Bool) :
    sightingsOf (items.map σ) isWhole = DocQuery.sightingsOf items isWhole := by
  simp [DocQuery.sightingsOf]

@[simp] theorem unnoticed (isTracked : Bool) (items : List Node) (isWhole : Bool) :
    unnoticed isTracked (items.map σ) isWhole = DocQuery.unnoticed isTracked items isWhole := by
  simp [DocQuery.unnoticed, Function.comp_def]

@[simp] theorem sightings (v : Value) : (v.map σ).sightings = v.sightings := by
  cases v with
  | node n => exact σ.sightingsOf [n] true
  | nodes items => exact σ.sightingsOf items true
  | undefined | null | boolean | number | text | moment => rfl

@[simp] theorem surveyed (isTracked : Bool) (items : List Node) (a : Arrangement) :
    a.surveyed isTracked (items.map σ) = a.surveyed isTracked items := by
  cases a with
  | first => rw [Arrangement.surveyed, Arrangement.surveyed, ← List.map_take, unnoticed]
  | last | flatten | reverse | distinct | custom => exact σ.unnoticed isTracked items _

end Seen

/-! ### Values and views -/

section Values

variable {options : Options}

@[simp] theorem atom? (v : Value) : (v.map σ).atom? = v.atom? := by
  cases v with
  | node n => rw [Value.map, Value.atom?, Value.atom?, scalar?]
  | nodes | undefined | null | boolean | number | text | moment => rfl

@[simp] theorem sortOf (v : Value) : (v.map σ).sort = v.sort := by
  cases v with
  | node n => exact σ.sort n
  | nodes | undefined | null | boolean | number | text | moment => rfl

@[simp] theorem isUndefined (v : Value) : (v.map σ).isUndefined = v.isUndefined := by
  cases v <;> rfl

@[simp] theorem isNullValue (v : Value) : (v.map σ).isNull = v.isNull := by
  cases v with
  | node n => exact σ.isNull n
  | nodes | undefined | null | boolean | number | text | moment => rfl

@[simp] theorem isMissing (v : Value) : (v.map σ).isMissing = v.isMissing := by
  rw [Value.isMissing, isUndefined, isNullValue, Value.isMissing]

@[simp] theorem structure? (v : Value) : (v.map σ).structure? = v.structure? := by
  cases v with
  | node n => rw [Value.map, Value.structure?, Value.structure?, σ.toJson]
  | nodes items => rw [Value.map, Value.structure?, Value.structure?, itemsToJson]
  | undefined | null | boolean | number | text | moment => rfl

@[simp] theorem mismatch (type : ScalarType) (p : Position) (v : Value) :
    (v.map σ).mismatch type p = v.mismatch type p := by
  rw [Value.mismatch, sortOf, Value.mismatch]

@[simp] theorem toBoolean (p : Position) (v : Value) : (v.map σ).toBoolean p = v.toBoolean p := by
  rw [Value.toBoolean, atom?, mismatch, Value.toBoolean]

@[simp] theorem toNumber (p : Position) (v : Value) : (v.map σ).toNumber p = v.toNumber p := by
  rw [Value.toNumber, atom?, mismatch, Value.toNumber]

@[simp] theorem toText (p : Position) (v : Value) : (v.map σ).toText p = v.toText p := by
  rw [Value.toText, atom?, mismatch, Value.toText]

@[simp] theorem toMoment (p : Position) (v : Value) :
    (v.map σ).toMoment options p = v.toMoment options p := by
  rw [Value.toMoment, atom?, mismatch, Value.toMoment]

@[simp] theorem expect (type : ScalarType) (p : Position) (v : Value) :
    (v.map σ).expect options type p = v.expect options type p := by
  cases type <;> simp [Value.expect]

@[simp] theorem convert? (type : ScalarType) (v : Value) :
    (v.map σ).convert? options type = v.convert? options type := by
  rw [Value.convert?, expect, Value.convert?]

@[simp] theorem display (p : Position) (v : Value) : (v.map σ).display p = v.display p := by
  rw [Value.display, atom?, structure?, isUndefined, Value.display]

@[simp] theorem same (v w : Value) : (v.map σ).same options (w.map σ) = v.same options w := by
  rw [Value.same, isMissing, isMissing, atom?, atom?, structure?, structure?, Value.same]

@[simp] theorem order (p : Position) (v w : Value) :
    (v.map σ).order options p (w.map σ) = v.order options p w := by
  rw [Value.order, atom?, atom?, sortOf, sortOf, Value.order]

theorem itemsOf (function : String) (p : Position) (v : Value) :
    (v.map σ).items function p = (v.items function p).map (List.map σ) := by
  cases v with
  | node n => exact congrArg Except.ok (σ.spread n)
  | nodes | undefined | null | boolean | number | text | moment => rfl

theorem asserted (p : Position) (v : Value) :
    (v.map σ).asserted p = (v.asserted p).map (Value.map σ) := by
  unfold Value.asserted
  rw [isMissing, sortOf]
  split
  · rfl
  · cases v with
    | nodes items => cases items <;> rfl
    | node | undefined | null | boolean | number | text | moment => rfl

theorem contribution (path : Path) (v : Value) :
    (v.map σ).contribution path = (v.contribution path).map σ := by
  cases v with
  | node n => exact σ.spread n
  | nodes | undefined => rfl
  | null | boolean | number | text | moment => exact congrArg (· :: []) (σ.scalar _ _).symm

theorem ofNode? (found : Option Node) :
    Value.ofNode? (found.map σ) = (Value.ofNode? found).map σ := by
  cases found <;> rfl

theorem ofValue (path : Path) (v : Value) :
    View.ofValue path (v.map σ) = (View.ofValue path v).map σ := by
  cases v with
  | node | nodes | undefined | null => rfl
  | boolean | number | text | moment =>
    exact congrArg (fun n => View.single (some n)) (σ.scalar _ _).symm

end Values

section Views

variable (view : View)

theorem toValue : (view.map σ).toValue = view.toValue.map σ := by
  rcases view with (_ | n) | items <;> rfl

theorem nodes : (view.map σ).nodes = view.nodes.map σ := by
  rcases view with (_ | n) | items <;> rfl

theorem items : (view.map σ).items = view.items.map σ := by
  rcases view with (_ | n) | items
  · rfl
  · show ((σ n).items?).getD [] = (n.items?.getD []).map σ
    rw [items?]
    cases n.items? <;> rfl
  · rfl

theorem member (name : String) : (view.map σ).member name = (view.member name).map σ := by
  rcases view with (_ | n) | items
  · rfl
  · cases n with
    | object p members =>
      have hmember := σ.member? (.object p members) name
      obtain ⟨rearranged, h, -⟩ := σ.object p members
      rw [View.map, Option.map_some, h]
      rw [h] at hmember
      exact congrArg View.single hmember
    | array p items =>
      rw [View.map, Option.map_some, σ.array]
      exact congrArg View.many (σ.searchAll name items)
    | scalar p s =>
      rw [View.map, Option.map_some, σ.scalar]
      rfl
  · exact congrArg View.many (σ.searchAll name items)

theorem item (index : Nat) : (view.map σ).item index = (view.item index).map σ := by
  rcases view with (_ | n) | items
  · rfl
  · show View.single ((σ n).items?.bind fun items => items[index]?) = _
    rw [items?]
    cases h : n.items? with
    | none => simp [View.item, View.map, h]
    | some items => simp [View.item, View.map, h]
  · simp [View.item, View.map]

theorem searched : (view.map σ).searched = view.searched.map σ := by
  rw [View.searched, nodes, View.searched, List.flatMap_map, List.map_flatMap]
  exact List.flatMap_congr fun n _ => σ.surrounded n

theorem counted (index : Option Nat) :
    (view.map σ).counted index = (view.counted index).map σ := by
  rw [View.counted, View.counted, nodes, items, List.map_append]
  cases index with
  | none => rfl
  | some i => rw [Option.map_some, Option.map_some, Option.getD_some, Option.getD_some,
      List.map_take]

/-- The standard selectors of items commute with a rearrangement. -/
theorem select {a : Arrangement} (h : ∀ name select, a ≠ .custom name select) (items : List Node) :
    a.select (items.map σ) = (a.select items).map σ := by
  cases a with
  | first => simp [Arrangement.select, View.map]
  | last => simp [Arrangement.select, View.map]
  | flatten =>
    rw [Arrangement.select, Arrangement.select, View.map, List.flatMap_map, List.map_flatMap]
    exact congrArg View.many (List.flatMap_congr fun n _ => σ.spread n)
  | reverse => simp [Arrangement.select, View.map]
  | distinct => exact congrArg View.many (σ.distinctAfter [] items)
  | custom name select => exact absurd rfl (h name select)

end Views

/-! ### Functions and operators -/

section Functions

variable {options : Options} (a b : Operand)

@[simp] theorem boolean : (a.map σ).boolean = a.boolean := σ.toBoolean a.position a.value

@[simp] theorem number : (a.map σ).number = a.number := σ.toNumber a.position a.value

@[simp] theorem text : (a.map σ).text = a.text := σ.toText a.position a.value

@[simp] theorem isText : BinaryOperation.isText (a.map σ) = BinaryOperation.isText a := by
  rw [BinaryOperation.isText, Operand.map, atom?, BinaryOperation.isText]

theorem unary (f : UnaryFunction) : f.run options (a.map σ) = f.run options a := by
  have hinteger (name : String) : UnaryFunction.integer name (a.map σ) =
      UnaryFunction.integer name a := by
    rw [UnaryFunction.integer, number]
    rfl
  have hword (change : List Char → List Char) : UnaryFunction.mapText change (a.map σ) =
      UnaryFunction.mapText change a := by
    rw [UnaryFunction.mapText, text]
    rfl
  cases f with
  | negate | toInt | toDouble | abs => simp only [UnaryFunction.run, number]
  | not => simp only [UnaryFunction.run, boolean]
  | lower | upper | trim => exact hword _
  | len => simp only [UnaryFunction.run, text]
  | toText => simp only [UnaryFunction.run, Operand.map, display]
  | toBoolean => simp only [UnaryFunction.run, UnaryFunction.readBoolean, Operand.map, atom?,
      mismatch]
  | toMoment => simp only [UnaryFunction.run, Operand.map, toMoment]
  | isEven | isOdd => simp only [UnaryFunction.run, hinteger]
  | isNull => simp only [UnaryFunction.run, Operand.map, isNullValue]
  | isUndefined => simp only [UnaryFunction.run, Operand.map, isUndefined]
  | hasValue => simp only [UnaryFunction.run, Operand.map, isMissing]

theorem binary (p : Position) (o : BinaryOperation) :
    o.run options p (a.map σ) (b.map σ) = o.run options p a b := by
  cases o with
  | sum => simp only [BinaryOperation.run, BinaryOperation.add, isText, text, number]
  | arithmetic operator => simp only [BinaryOperation.run, number]
  | equal | unequal => simp only [BinaryOperation.run, Operand.map, same]
  | relation r => simp only [BinaryOperation.run, Operand.map, order]

theorem index : (a.map σ).index = a.index := by
  simp only [Operand.index, Operand.wholeNumber, number]
  rfl

theorem tallied (tally : Tally) : tally.add (a.map σ) = tally.add a := by
  cases tally <;> simp only [Tally.add, boolean, number]

end Functions

/-- What is computed is left as it is. -/
theorem map_of_computed {o : Except Fault Value} (h : ∀ v, o = .ok v → v.isComputed) :
    o.map (Value.map σ) = o := by
  rcases o with fault | v
  · rfl
  · exact congrArg Except.ok (Value.map_of_isComputed (h v rfl) σ)

/-! ### Going through items -/

section Items

variable {test test' : Node × Nat → Traced Bool} {valueOf valueOf' : Node × Nat → Traced Operand}

theorem zipIdx (items : List Node) (k : Nat) :
    (items.map σ).zipIdx k = (items.zipIdx k).map (itemMap σ) :=
  List.zipIdx_map

theorem filterItems (h : ∀ item, test' (itemMap σ item) = test item) (items : List (Node × Nat)) :
    filterItems test' (items.map (itemMap σ)) =
      List.map σ <$> DocQuery.filterItems test items := by
  induction items with
  | nil => rfl
  | cons item items ih =>
    simp only [List.map_cons, DocQuery.filterItems, h, ih, map_bind, bind_map_left, map_pure]
    refine bind_congr fun passes => bind_congr fun rest => ?_
    cases passes <;> rfl

theorem projectItems {project project' : Node × Nat → Traced Value}
    (h : ∀ item, project' (itemMap σ item) = Value.map σ <$> project item)
    (items : List (Node × Nat)) :
    projectItems project' (items.map (itemMap σ)) =
      List.map σ <$> DocQuery.projectItems project items := by
  induction items with
  | nil => rfl
  | cons item items ih =>
    simp only [List.map_cons, DocQuery.projectItems, h, ih, map_bind, bind_map_left, map_pure]
    refine bind_congr fun v => bind_congr fun rest => ?_
    rw [List.map_append, itemMap, path, contribution]

theorem findItem (h : ∀ item, test' (itemMap σ item) = test item) (items : List (Node × Nat)) :
    findItem test' (items.map (itemMap σ)) =
      Option.map σ <$> DocQuery.findItem test items := by
  induction items with
  | nil => rfl
  | cons item items ih =>
    simp only [List.map_cons, DocQuery.findItem, h, ih, map_bind]
    refine bind_congr fun passes => ?_
    cases passes <;> rfl

theorem testOf (h : ∀ item, valueOf' (itemMap σ item) = Operand.map σ <$> valueOf item)
    (item : Node × Nat) : testOf valueOf' (itemMap σ item) = DocQuery.testOf valueOf item := by
  simp only [DocQuery.testOf, h, bind_map_left, boolean]

theorem through (h : ∀ item, valueOf' (itemMap σ item) = Operand.map σ <$> valueOf item)
    (items : List Node) (selector : LambdaSelector) :
    selector.select valueOf' (items.map σ) = View.map σ <$> selector.select valueOf items := by
  have htest := σ.testOf h
  cases selector with
  | filter =>
    simp only [LambdaSelector.select, zipIdx, σ.filterItems htest, map_bind, bind_map_left,
      map_pure]
    rfl
  | project =>
    have hprojected : DocQuery.projectItems (fun item => do pure (← valueOf' item).value)
        (items.zipIdx.map (itemMap σ)) =
        List.map σ <$>
          DocQuery.projectItems (fun item => do pure (← valueOf item).value) items.zipIdx := by
      refine σ.projectItems (fun item => ?_) items.zipIdx
      simp only [h, map_bind, bind_map_left, map_pure]
      rfl
    simp only [LambdaSelector.select, zipIdx, hprojected, map_bind, bind_map_left, map_pure]
    rfl
  | first =>
    simp only [LambdaSelector.select, zipIdx, σ.findItem htest, map_bind, bind_map_left, map_pure]
    rfl
  | last =>
    simp only [LambdaSelector.select, zipIdx, ← List.map_reverse, σ.findItem htest, map_bind,
      bind_map_left, map_pure]
    rfl

theorem collect (h : ∀ item, valueOf' (itemMap σ item) = Operand.map σ <$> valueOf item)
    (tally : Tally) (items : List (Node × Nat)) :
    tally.collect valueOf' (items.map (itemMap σ)) = tally.collect valueOf items := by
  induction items generalizing tally with
  | nil => rfl
  | cons item items ih =>
    simp only [List.map_cons, Tally.collect, h, bind_map_left, tallied, ih]

theorem runWith (h : ∀ item, valueOf' (itemMap σ item) = Operand.map σ <$> valueOf item)
    (a : Aggregate) (items : List Node) :
    a.runWith valueOf' (items.map σ) = a.runWith valueOf items := by
  rw [Aggregate.runWith, zipIdx, σ.collect h, Aggregate.runWith]

theorem run (a : Aggregate) (p : Position) (items : List Node) :
    a.run p (items.map σ) = a.run p items := by
  cases a with
  | count => rw [Aggregate.run, List.length_map, Aggregate.run]
  | any => rw [Aggregate.run, List.isEmpty_map, Aggregate.run]
  | all | sum | average | min | max => exact σ.runWith (fun _ => rfl) _ items

end Items

/-! ### Senses -/

section Senses

variable (a b : Sense) (as : List Sense)

theorem operand : (a.map σ).operand = Operand.map σ <$> a.operand := by
  simp only [Sense.operand, Sense.map, map_bind, bind_map_left, map_pure]
  rfl

theorem texts : Sense.texts (as.map (Sense.map σ)) = Sense.texts as := by
  induction as with
  | nil => rfl
  | cons a as ih =>
    simp only [List.map_cons, Sense.texts, ih]
    simp only [Sense.map, bind_map_left, toText]

theorem converted (options : Options) (type : ScalarType) :
    Sense.converted options type (as.map (Sense.map σ)) = Sense.converted options type as := by
  induction as with
  | nil => rfl
  | cons a as ih =>
    simp only [List.map_cons, Sense.converted, ih]
    simp only [Sense.map, bind_map_left, expect]

theorem indexed (isTracked : Bool) (view : View) :
    Sense.indexed isTracked (view.map σ) (as.map (Sense.map σ)) =
      View.map σ <$> Sense.indexed isTracked view as := by
  induction as generalizing view with
  | nil => rfl
  | cons a as ih =>
    simp only [List.map_cons, Sense.indexed, operand, bind_map_left, index, counted, unnoticed,
      map_bind]
    refine bind_congr fun x => bind_congr fun index => bind_congr fun _ => ?_
    rw [← ih]
    cases index with
    | none => rfl
    | some i => rw [Option.elim_some, Option.elim_some, item]

theorem located (isTracked : Bool) (items : List Node) (found : Option Node) :
    Sense.located isTracked (items.map σ) (found.map σ) (as.map (Sense.map σ)) =
      Option.map σ <$> Sense.located isTracked items found as := by
  induction as generalizing items found with
  | nil => rfl
  | cons a as ih =>
    have hcounted (index : Option Nat) := σ.counted (.many items) index
    simp only [View.map] at hcounted
    simp only [List.map_cons, Sense.located, operand, bind_map_left, index, hcounted, unnoticed,
      map_bind]
    refine bind_congr fun x => bind_congr fun index => bind_congr fun _ => ?_
    have hfound : (index.bind fun i => (items.map σ)[i]?) =
        (index.bind fun i => items[i]?).map σ := by
      cases index with
      | none => rfl
      | some i => exact List.getElem?_map
    rw [hfound]
    cases index.bind fun i => items[i]? with
    | none => rfl
    | some n =>
      have hitems : (σ n).items?.getD [] = (n.items?.getD []).map σ := by
        rw [items?]
        cases n.items? <;> rfl
      simp only [Option.map_some, hitems]
      exact ih _ (some n)

end Senses

end Rearrangement

/-! ### Vocabularies -/

/-- Whether the values that a vocabulary adds are left as they are by a rearrangement, and its
selectors of items commute with it. -/
structure Vocabulary.Respects (v : Vocabulary) (σ : Rearrangement) : Prop where
  constant : ∀ name x, v.constants.lookup name = some x → x.map σ = x
  text : ∀ content x, v.texts.lookup content = some (some x) → x.map σ = x
  function : ∀ name o, v.functions.lookup name = some (.operation o) →
    ∀ vs, (o.compute vs).map σ = o.compute vs
  binary : ∀ name o, v.binary.lookup name = some (.custom o) →
    ∀ vs, (o.compute vs).map σ = o.compute vs
  optional : ∀ name selector a, v.selectors.lookup name = some (.optionalLambda selector a) →
    ∀ items, a.select (items.map σ) = (a.select items).map σ
  arrangement : ∀ name a, v.selectors.lookup name = some (.arrangement a) →
    ∀ items, a.select (items.map σ) = (a.select items).map σ
  custom : ∀ name select, v.selectors.lookup name = some (.custom select) →
    ∀ items, select (items.map σ) = (select items).map σ

theorem Value.map_id (v : Value) : v.map id = v := by
  cases v with
  | nodes items => exact congrArg Value.nodes (List.map_id items)
  | node | undefined | null | boolean | number | text | moment => rfl

theorem View.map_id (view : View) : view.map id = view := by
  rcases view with (_ | n) | items
  · rfl
  · rfl
  · exact congrArg View.many (List.map_id items)

/-- All vocabularies respect the change that leaves all values as they are. -/
theorem Vocabulary.respects_refl (v : Vocabulary) : v.Respects .refl := by
  have hselect (select : List Node → View) (items : List Node) :
      select (items.map id) = (select items).map id := by
    rw [List.map_id, View.map_id]
  exact ⟨fun _ x _ => x.map_id, fun _ x _ => x.map_id, fun _ _ _ _ => Value.map_id _,
    fun _ _ _ _ => Value.map_id _, fun _ _ a _ => hselect fun items => a.select items,
    fun _ a _ => hselect fun items => a.select items, fun _ select _ => hselect select⟩

/-- The standard vocabulary respects every rearrangement. -/
theorem Vocabulary.standard_respects (σ : Rearrangement) : Vocabulary.standard.Respects σ where
  constant := by
    intro name x h
    have hmem := mem_of_lookup h
    simp only [standard, List.mem_cons, Prod.mk.injEq, List.not_mem_nil, or_false] at hmem
    rcases hmem with ⟨-, rfl⟩ | ⟨-, rfl⟩ | ⟨-, rfl⟩ | ⟨-, rfl⟩ <;> rfl
  text := nofun
  function := by
    intro name o h
    have hmem := mem_of_lookup h
    simp [standard, standardFunctions] at hmem
  binary := by
    intro name o h
    have hmem := mem_of_lookup h
    simp [standard, standardBinary] at hmem
  optional := by
    intro name selector a h
    refine σ.select fun n select ha => ?_
    have hmem := mem_of_lookup h
    subst ha
    simp [standard, standardSelectors] at hmem
  arrangement := by
    intro name a h
    refine σ.select fun n select ha => ?_
    have hmem := mem_of_lookup h
    subst ha
    simp [standard, standardSelectors] at hmem
  custom := by
    intro name select h
    have hmem := mem_of_lookup h
    simp [standard, standardSelectors] at hmem

end DocQuery
