/-
Expressions that differ only in where their parts stand.

* `told` — an outcome without the place of its fault;
* `Correspondence.relocated` — equal values, and any relation between positions in expressions;
* `Expr.outcome`, `outcomeIn` — what a tree and a text come to, with the lambdas around them;
* `Expr.SameShape.outcome` — trees of one shape come to the same value, or to faults that differ
  only in their places;
* `Language.Parses` — which tree a text has, whatever the places of its nodes are.

Design notes: one expression that is written into two texts stands in two places there. Whatever is
said of two such texts is said of one tree first, and carried over by its shape. A text inside
lambdas has no formula of its own in the program; it is compiled with the text around it, among the
names that the lambdas give it.
-/
import DocQuery.Proofs.Expr.Moving
import DocQuery.Proofs.Formula.Positions

namespace DocQuery

/-- An outcome as it is told, without the place of its fault. -/
def told {α : Type} (x : Except Fault α) : Except String α :=
  x.mapError Fault.message

section Told

variable {α : Type} {x : Except Fault α}

@[simp] theorem told_ok (a : α) : told (.ok a) = .ok a := rfl

@[simp] theorem told_error (fault : Fault) :
    told (.error fault : Except Fault α) = .error fault.message := rfl

theorem told_eq_ok_iff {a : α} : told x = .ok a ↔ x = .ok a := by
  rcases x with fault | b <;> simp

theorem Correspondence.Outcomes.told_eq {C : Correspondence} {y : Except Fault α}
    (h : C.Outcomes Eq x y) : told y = told x := by
  cases h with
  | ok hab => rw [hab]
  | error hfault => rw [told_error, told_error, hfault.message_eq]

end Told

namespace Correspondence

/-- A value is of the form of itself. -/
theorem formAgrees_self (n : Node) : n.FormAgrees Eq n := by
  cases n with
  | object p ms => exact .object p p (List.forall₂_same.2 fun m _ => ⟨rfl, rfl⟩)
  | array p ns => exact .array p p (List.forall₂_same.2 fun n _ => rfl)
  | scalar p s => exact .scalar p p s

/-- The correspondence of values with themselves, for expressions whose positions are in the given
relation. -/
def relocated (position : Position → Position → Prop) : Correspondence where
  node := Eq
  path := Eq
  position := position
  form h := h ▸ formAgrees_self _
  path_of_node h := congrArg Node.path h
  computed h _ := h ▸ rfl

variable {Q : Position → Position → Prop}

theorem relocated_values (v : Value) : (relocated Q).Values v v := by
  cases v with
  | node n => exact .node rfl
  | nodes ns => exact .nodes (List.forall₂_same.2 fun n _ => rfl)
  | undefined | null | boolean | number | text | moment => exact .computed rfl

theorem relocated_found (found : Option Node) : Option.Rel (relocated Q).node found found := by
  cases found with
  | none => exact .none
  | some n => exact .some rfl

theorem relocated_views (view : View) : (relocated Q).Views view view := by
  cases view with
  | single found => exact .single (relocated_found found)
  | many ns => exact .many (List.forall₂_same.2 fun n _ => rfl)

theorem Values.eq_of_relocated {v v' : Value} (h : (relocated Q).Values v v') : v = v' := by
  cases h with
  | computed => rfl
  | node hn => exact congrArg Value.node hn
  | nodes hns => exact congrArg Value.nodes (by simpa [relocated] using hns)

theorem relocated_keeps (a : Arrangement) : (relocated Q).Keeps a := by
  intro ns ns' hns
  obtain rfl : ns = ns' := by simpa [relocated] using hns
  exact relocated_views _

end Correspondence

open Correspondence

variable {Q : Position → Position → Prop}

theorem Vocabulary.keeps_relocated (v : Vocabulary) : v.Keeps (relocated Q) where
  constant _ x _ := relocated_values x
  text _ x _ := relocated_values x
  function _ o _ vs := relocated_values (o.compute vs)
  binary _ o _ vs := relocated_values (o.compute vs)
  optional _ _ a _ := relocated_keeps a
  arrangement _ a _ := relocated_keeps a
  custom name select _ := relocated_keeps (.custom name select)

/-- Whether two formulas differ only in their positions, which are in relation. -/
abbrev Formula.Relocated (Q : Position → Position → Prop) : Formula → Formula → Prop :=
  Formula.Corresponds (relocated Q) fun _ => True

theorem Context.corresponds_self (c : Context) :
    c.Corresponds (relocated Q) (fun _ => True) c where
  options_eq := rfl
  now_eq := rfl
  root_path := rfl
  computed _ := rfl
  property _ _ _ := relocated_found _
  this _ := rfl
  parent _ := relocated_found _
  bindings := List.forall₂_same.2 fun _ _ => ⟨rfl, rfl, rfl⟩

/-- Formulas that differ only in their positions come to the same value. -/
theorem Formula.Corresponds.outcome {f f' : Formula} (h : f.Relocated Q f') (c : Context) :
    (relocated Q).Outcomes Eq (evaluate c f).outcome (evaluate c f').outcome := by
  have hrun := (evaluate_corresponds c.corresponds_self h).outcome
  generalize (evaluate c f).outcome = x at hrun ⊢
  generalize (evaluate c f').outcome = y at hrun ⊢
  cases hrun with
  | ok hv => exact .ok hv.eq_of_relocated
  | error hfault => exact .error hfault

theorem opens_anywhere (name : String) : Opens (fun _ => True) name :=
  ⟨trivial, fun _ _ => ⟨trivial, fun _ => trivial⟩⟩

/-- Trees of one shape have formulas that differ only in their positions, or one fault. -/
theorem Expr.SameShape.compile {e e' : Expr} (h : e.SameShape Q e') (s : Naming) :
    (relocated Q).Outcomes (Formula.Relocated Q) (compile s e) (compile s e') :=
  compile_corresponds (fun _ _ _ => trivial) s.vocabulary.keeps_relocated h
    fun n _ => opens_anywhere n

/-- What a tree comes to, with the lambdas around it. -/
def Expr.outcome (s : Naming) (c : Context) (e : Expr) : Except Fault Value := do
  let f ← compile s e
  (evaluate c f).outcome

theorem Expr.SameShape.outcome {e e' : Expr} (h : e.SameShape Q e') (s : Naming) (c : Context) :
    (relocated Q).Outcomes Eq (e.outcome s c) (e'.outcome s c) :=
  (h.compile s).bind fun _ _ hf => hf.outcome c

/-- What the text of an expression comes to, with the lambdas around it. -/
def outcomeIn (s : Naming) (c : Context) (text : String) (origin : Position) :
    Except Fault Value := do
  let e ← parseExpression s.dialect.language text origin
  e.outcome s c

/-- Outside of all lambdas, a text comes to the value of its formula. -/
theorem outcomeIn_outermost (d : Dialect) (c : Context) (text : String) (origin : Position) :
    outcomeIn ⟨d, []⟩ c text origin =
      (compileExpression d text origin >>= fun f => (evaluate c f).outcome) := by
  rw [outcomeIn, compileExpression, bind_assoc]
  rfl

/-- Whether a text has a tree of the shape of `e`. -/
def Language.Parses (l : Language) (text : String) (origin : Position) (e : Expr) : Prop :=
  ∃ e', parseExpression l text origin = .ok e' ∧ e.SameShape Anywhere e'

namespace Expr

mutual

/-- A tree with all its nodes in one place. -/
def gathered : Expr → Expr
  | .name n _ => .name n .start
  | .number digits _ => .number digits .start
  | .text content _ => .text content .start
  | .binary o left right _ => .binary o left.gathered right.gathered .start
  | .before o operand _ => .before o operand.gathered .start
  | .after o operand _ => .after o operand.gathered .start
  | .group inner _ => .group inner.gathered .start
  | .call function arguments _ => .call function (gatheredAll arguments) .start
  | .index n indexes _ => .index n (gatheredAll indexes) .start
  | .lambda parameters body _ =>
    .lambda (parameters.map fun parameter => ⟨parameter.name, .start⟩) body.gathered .start

/-- Trees with all their nodes in one place. -/
def gatheredAll : List Expr → List Expr
  | [] => []
  | e :: es => e.gathered :: gatheredAll es

end

mutual

theorem sameShape_gathered : (e : Expr) → e.gathered.SameShape Anywhere e
  | .name n _ => .name n trivial
  | .number digits _ => .number digits trivial
  | .text content _ => .text content trivial
  | .binary o left right _ =>
    .binary o (sameShape_gathered left) (sameShape_gathered right) trivial
  | .before o operand _ => .before o (sameShape_gathered operand) trivial
  | .after o operand _ => .after o (sameShape_gathered operand) trivial
  | .group inner _ => .group (sameShape_gathered inner) trivial
  | .call function arguments _ => .call function (allSameShape_gathered arguments) trivial
  | .index n indexes _ => .index n (allSameShape_gathered indexes) trivial
  | .lambda parameters body _ =>
    .lambda (by rw [List.map_map]; rfl) (sameShape_gathered body) trivial

theorem allSameShape_gathered : (es : List Expr) → AllSameShape Anywhere (gatheredAll es) es
  | [] => .nil
  | e :: es => .cons (sameShape_gathered e) (allSameShape_gathered es)

end

end Expr

/-- The shape of the tree of a text can be computed. -/
theorem Language.parses_of_gathered {l : Language} {text : String} {origin : Position} {e : Expr}
    (h : (parseExpression l text origin).map Expr.gathered = .ok e) : l.Parses text origin e := by
  obtain ⟨e', hparse, rfl⟩ := Except.map_eq_ok_iff.1 h
  exact ⟨e', hparse, e'.sameShape_gathered⟩

/-- A text comes to what its tree comes to, wherever the nodes of the tree stand. -/
theorem Language.Parses.told_outcomeIn {s : Naming} {text : String} {origin : Position} {e : Expr}
    (h : s.dialect.language.Parses text origin e) (c : Context) :
    told (outcomeIn s c text origin) = told (e.outcome s c) := by
  obtain ⟨e', hparse, hshape⟩ := h
  rw [outcomeIn, hparse, Except.ok_bind]
  exact (hshape.outcome s c).told_eq

theorem Language.Parses.outcomeIn_eq_ok_iff {s : Naming} {text : String} {origin : Position}
    {e : Expr} (h : s.dialect.language.Parses text origin e) {c : Context} {v : Value} :
    outcomeIn s c text origin = .ok v ↔ e.outcome s c = .ok v := by
  rw [← told_eq_ok_iff, h.told_outcomeIn, told_eq_ok_iff]

end DocQuery
