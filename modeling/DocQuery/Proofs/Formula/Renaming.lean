/-
The names of parameters do not matter.

* `Expr.rename` — the body of a lambda with another name for a parameter;
* `Expr.Renames` — one parameter of one lambda gets a name that is not in use;
* `Expr.Renames.alike`, `compile_renames` — this gives an alike expression, which is accepted as
  well and has the same value;
* `compileExpression_scopes` — what is compiled has the value that lexical scoping gives it, meets
  no parameter without a value, and keeps its value when parameters are renamed.

Design notes: that the new name is not in use is needed to see that the expressions are alike, and
nowhere else. Places do not move with the names, since faults are reported there.
-/
import DocQuery.Proofs.Formula.Likeness
import DocQuery.Proofs.Formula.Soundness
import Mathlib.Logic.Relation

namespace DocQuery

/-! ### Renaming -/

namespace Expr

mutual

/-- The names in an expression, those of parameters among them. -/
def names : Expr → List String
  | name n _ => [n]
  | number _ _ | text _ _ => []
  | binary _ left right _ => left.names ++ right.names
  | before _ operand _ | after _ operand _ => operand.names
  | group inner _ => inner.names
  | call _ arguments _ => namesOfAll arguments
  | index n indexes _ => n :: namesOfAll indexes
  | lambda parameters body _ => parameters.map (·.name) ++ body.names

/-- The names in several expressions. -/
def namesOfAll : List Expr → List String
  | [] => []
  | e :: es => e.names ++ namesOfAll es

end

mutual

/-- The body of a lambda, or a part of it, with the name `new` for the parameter `old`. Names after
a point are those of properties, and a lambda with a parameter of the same name hides this one. -/
def rename (v : Vocabulary) (old new : String) (isHead : Bool) : Expr → Expr
  | name n p => name (if isHead && n == old && !v.isWord n then new else n) p
  | number digits p => number digits p
  | text content p => text content p
  | binary o left right p =>
    binary o (left.rename v old new (isHead || o.name != pathOperator))
      (right.rename v old new (o.name != pathOperator)) p
  | before o operand p => before o (operand.rename v old new (isHead || o.name != pathOperator)) p
  | after o operand p => after o (operand.rename v old new (isHead || o.name != pathOperator)) p
  | group inner p => group (inner.rename v old new true) p
  | call function arguments p => call function (renameAll v old new arguments) p
  | index n indexes p =>
    index (if isHead && n == old then new else n) (renameAll v old new indexes) p
  | lambda parameters body p =>
    if old ∈ parameters.map (·.name) then lambda parameters body p
    else lambda parameters (body.rename v old new true) p

/-- Several parts of the body of a lambda with the name `new` for the parameter `old`. -/
def renameAll (v : Vocabulary) (old new : String) : List Expr → List Expr
  | [] => []
  | e :: es => e.rename v old new true :: renameAll v old new es

end

/-- Whether an expression becomes another one when one parameter of one of its lambdas gets a name
that is no word and not in use there. -/
inductive Renames (v : Vocabulary) : Expr → Expr → Prop
  | parameter {earlier later : List Parameter} {old new : String} {body : Expr} (q p : Position) :
    old ∉ earlier.map (·.name) → new ∉ (earlier ++ later).map (·.name) → new ∉ body.names →
      v.isWord new = false →
        Renames v (.lambda (earlier ++ ⟨old, q⟩ :: later) body p)
          (.lambda (earlier ++ ⟨new, q⟩ :: later) (body.rename v old new true) p)
  | body {parameters : List Parameter} {body body' : Expr} (p : Position) :
    Renames v body body' → Renames v (.lambda parameters body p) (.lambda parameters body' p)
  | left {o : Operator} {left left' right : Expr} (p : Position) :
    Renames v left left' → Renames v (.binary o left right p) (.binary o left' right p)
  | right {o : Operator} {left right right' : Expr} (p : Position) :
    Renames v right right' → Renames v (.binary o left right p) (.binary o left right' p)
  | before {o : Operator} {operand operand' : Expr} (p : Position) :
    Renames v operand operand' → Renames v (.before o operand p) (.before o operand' p)
  | after {o : Operator} {operand operand' : Expr} (p : Position) :
    Renames v operand operand' → Renames v (.after o operand p) (.after o operand' p)
  | group {inner inner' : Expr} (p : Position) :
    Renames v inner inner' → Renames v (.group inner p) (.group inner' p)
  | argument {function : String} {es es' : List Expr} {e e' : Expr} (p : Position) :
    Renames v e e' →
      Renames v (.call function (es ++ e :: es') p) (.call function (es ++ e' :: es') p)
  | index {n : String} {es es' : List Expr} {e e' : Expr} (p : Position) :
    Renames v e e' → Renames v (.index n (es ++ e :: es') p) (.index n (es ++ e' :: es') p)

theorem alike_name {R : String → String → Prop} {n : String} (h : R n n) (isHead : Bool)
    (p : Position) : Alike v R isHead (.name n p) (.name n p) := by
  by_cases hhead : isHead = true
  · by_cases hword : v.isWord n = true
    · exact .same p (.inr hword)
    · rw [Bool.not_eq_true] at hword
      rw [hhead]
      exact .name p hword hword h
  · exact .same p (.inl (Bool.not_eq_true _ ▸ hhead))

mutual

/-- An expression is alike to itself if its names correspond to themselves. -/
theorem alike_self {R : String → String → Prop} (e : Expr) (h : ∀ n ∈ e.names, R n n)
    (isHead : Bool) : Alike v R isHead e e := by
  match e with
  | .name n p => exact alike_name (h n (by simp [names])) isHead p
  | .number digits p => exact .number digits p
  | .text content p => exact .text content p
  | .binary o left right p =>
    obtain ⟨hleft, hright⟩ := List.forall_mem_append.1 h
    exact .binary p (left.alike_self hleft _) (right.alike_self hright _)
  | .before o operand p => exact .before p (operand.alike_self h _)
  | .after o operand p => exact .after p (operand.alike_self h _)
  | .group inner p => exact .group p (inner.alike_self h true)
  | .call function arguments p => exact .call p (allAlike_self arguments h)
  | .index n indexes p =>
    obtain ⟨hn, hindexes⟩ := List.forall_mem_cons.1 h
    cases isHead with
    | true => exact .index p hn (allAlike_self indexes hindexes)
    | false => exact .memberIndex p (allAlike_self indexes hindexes)
  | .lambda parameters body p =>
    obtain ⟨-, hbody⟩ := List.forall_mem_append.1 h
    exact .lambda p rfl (body.alike_self (fun n hn => ⟨rfl, fun _ => hbody n hn⟩) true)

theorem allAlike_self {R : String → String → Prop} (es : List Expr)
    (h : ∀ n ∈ namesOfAll es, R n n) : AllAlike v R es es := by
  match es with
  | [] => exact .nil
  | e :: es =>
    obtain ⟨he, hes⟩ := List.forall_mem_append.1 h
    exact .cons (e.alike_self he true) (allAlike_self es hes)

end

mutual

/-- A name that is not in use can take the place of a parameter. -/
theorem alike_rename {R : String → String → Prop} {old new : String} (e : Expr)
    (hothers : ∀ n ∈ e.names, n ≠ old → R n n) (hnew : R old new) (hunused : new ∉ e.names)
    (hword : v.isWord new = false) (isHead : Bool) :
    Alike v R isHead e (e.rename v old new isHead) := by
  match e with
  | .name n p =>
    by_cases hold : n = old
    · subst hold
      by_cases hkept : isHead = false ∨ v.isWord n = true
      · have hname : rename v n new isHead (.name n p) = .name n p := by
          rcases hkept with hkept | hkept <;> simp [rename, hkept]
        rw [hname]
        exact .same p hkept
      · simp only [not_or, Bool.not_eq_false, Bool.not_eq_true] at hkept
        obtain ⟨rfl, hn⟩ := hkept
        simp only [rename, hn, BEq.rfl, Bool.not_false, Bool.and_self, if_true]
        exact .name p hn hword hnew
    · have hname : rename v old new isHead (.name n p) = .name n p := by
        simp [rename, hold]
      rw [hname]
      exact alike_name (hothers n (by simp [names]) hold) isHead p
  | .number digits p => exact .number digits p
  | .text content p => exact .text content p
  | .binary o left right p =>
    obtain ⟨hleft, hright⟩ := List.forall_mem_append.1 hothers
    rw [names, List.mem_append, not_or] at hunused
    exact .binary p (left.alike_rename hleft hnew hunused.1 hword _)
      (right.alike_rename hright hnew hunused.2 hword _)
  | .before o operand p => exact .before p (operand.alike_rename hothers hnew hunused hword _)
  | .after o operand p => exact .after p (operand.alike_rename hothers hnew hunused hword _)
  | .group inner p => exact .group p (inner.alike_rename hothers hnew hunused hword true)
  | .call function arguments p =>
    exact .call p (allAlike_renameAll arguments hothers hnew hunused hword)
  | .index n indexes p =>
    obtain ⟨hn, hindexes⟩ := List.forall_mem_cons.1 hothers
    rw [names, List.mem_cons, not_or] at hunused
    have hall := allAlike_renameAll indexes hindexes hnew hunused.2 hword
    cases isHead with
    | true =>
      by_cases hold : n = old
      · subst hold
        exact .index p (by simpa using hnew) hall
      · exact .index p (by simpa [hold] using hn hold) hall
    | false => exact .memberIndex p hall
  | .lambda parameters body p =>
    obtain ⟨-, hbody⟩ := List.forall_mem_append.1 hothers
    rw [names, List.mem_append, not_or] at hunused
    rw [rename]
    split
    · rename_i hhidden
      -- the inner lambda has a parameter of this name, and nothing is renamed in it
      refine .lambda p rfl (body.alike_self (fun n hn => ⟨rfl, fun hfree => ?_⟩) true)
      refine hbody n hn ?_
      rintro rfl
      exact List.idxOf?_eq_none_iff.1 hfree hhidden
    · rename_i hfree
      refine .lambda p rfl (body.alike_rename (fun n hn hne => ⟨rfl, fun _ => hbody n hn hne⟩) ?_
        hunused.2 hword true)
      refine ⟨?_, fun _ => hnew⟩
      rw [List.idxOf?_eq_none_iff.2 hfree, List.idxOf?_eq_none_iff.2 hunused.1]

theorem allAlike_renameAll {R : String → String → Prop} {old new : String} (es : List Expr)
    (hothers : ∀ n ∈ namesOfAll es, n ≠ old → R n n) (hnew : R old new)
    (hunused : new ∉ namesOfAll es) (hword : v.isWord new = false) :
    AllAlike v R es (renameAll v old new es) := by
  match es with
  | [] => exact .nil
  | e :: es =>
    obtain ⟨he, hes⟩ := List.forall_mem_append.1 hothers
    rw [namesOfAll, List.mem_append, not_or] at hunused
    exact .cons (e.alike_rename he hnew hunused.1 hword true)
      (allAlike_renameAll es hes hnew hunused.2 hword)

end

theorem idxOf?_append_of_ne {n old new : String} (hold : n ≠ old) (hnew : n ≠ new)
    (as bs : List String) : (as ++ old :: bs).idxOf? n = (as ++ new :: bs).idxOf? n := by
  induction as with
  | nil => simp [List.idxOf?_cons, hold.symm, hnew.symm]
  | cons a as ih => simp [List.idxOf?_cons, ih]

theorem idxOf?_append_self {n : String} {as : List String} (h : n ∉ as) (bs : List String) :
    (as ++ n :: bs).idxOf? n = some as.length := by
  induction as with
  | nil => simp [List.idxOf?_cons]
  | cons a as ih =>
    rw [List.mem_cons, not_or] at h
    simp [List.idxOf?_cons, Ne.symm h.1, ih h.2]

theorem AllAlike.append {R : String → String → Prop} {e e' : Expr} (hR : ∀ n, R n n)
    (he : Alike v R true e e') (es es' : List Expr) :
    AllAlike v R (es ++ e :: es') (es ++ e' :: es') := by
  induction es with
  | nil => exact .cons he (allAlike_self es' fun n _ => hR n)
  | cons a as ih => exact .cons (a.alike_self (fun n _ => hR n) true) ih

/-- Renaming a parameter gives an expression that is alike. -/
theorem Renames.alike {e e' : Expr} (h : Renames v e e') {R : String → String → Prop}
    (hR : ∀ n, R n n) (isHead : Bool) : Alike v R isHead e e' := by
  induction h generalizing R isHead with
  | @parameter earlier later old new body q p hold hnew hunused hword =>
    rw [List.map_append, List.mem_append, not_or] at hnew
    refine .lambda p (by simp) (body.alike_rename ?_ ?_ hunused hword true)
    · intro n hn hne
      have hne' : n ≠ new := by
        rintro rfl
        exact hunused hn
      refine ⟨?_, fun _ => hR n⟩
      rw [List.map_append, List.map_append, List.map_cons, List.map_cons]
      exact idxOf?_append_of_ne hne hne' _ _
    · have hplace := idxOf?_append_self hold (later.map (·.name))
      have hplace' := idxOf?_append_self hnew.1 (later.map (·.name))
      rw [Inside, List.map_append, List.map_append, List.map_cons, List.map_cons, hplace, hplace']
      exact ⟨rfl, nofun⟩
  | body p _ ih => exact .lambda p rfl (ih (fun n => ⟨rfl, fun _ => hR n⟩) true)
  | @left o _ _ right p _ ih => exact .binary p (ih hR _) (right.alike_self (fun n _ => hR n) _)
  | @right o left _ _ p _ ih => exact .binary p (left.alike_self (fun n _ => hR n) _) (ih hR _)
  | before p _ ih => exact .before p (ih hR _)
  | after p _ ih => exact .after p (ih hR _)
  | group p _ ih => exact .group p (ih hR true)
  | @argument _ es es' _ _ p _ ih => exact .call p (.append hR (ih hR true) es es')
  | @index n es es' _ _ p _ ih =>
    have hall := AllAlike.append hR (ih hR true) es es'
    cases isHead with
    | true => exact .index p (hR n) hall
    | false => exact .memberIndex p hall

end Expr

/-- An expression with a parameter renamed is accepted as well, and has the same value. -/
theorem compile_renames {d : Dialect} {e e' : Expr} {f : Formula} (h : compile ⟨d, []⟩ e = .ok f)
    (hrenames : Expr.Renames d.vocabulary e e') :
    ∃ f', compile ⟨d, []⟩ e' = .ok f' ∧ ∀ c, evaluate c f' = evaluate c f := by
  have halike : Expr.Alike d.vocabulary (· = ·) true e e' := hrenames.alike (fun _ => rfl) true
  obtain ⟨f', hf'⟩ : ∃ f', Compiles ⟨d, []⟩ e' f' :=
    (compiles_iff.1 h).alike halike.sameLook fun hc => hc.alike halike rfl rfl rfl
  have hcompiled := compiles_iff.2 hf'
  refine ⟨f', hcompiled, fun c => ?_⟩
  have hnames : Environment.Corresponds (· = ·) .outermost .outermost := by
    rintro n _ rfl
    rfl
  rw [evaluate_eq_interpret hcompiled, evaluate_eq_interpret h]
  exact congrArg Sense.value
    (halike.sameLook.sense_eq (halike.reach_eq hnames none rfl))

/-- What is compiled keeps lexical scope. It has the value, or the fault, of its expression in the
environment in which names are those of properties, where a lambda binds its parameters for each
item that it is entered for. No evaluation meets a parameter without a value, or breaks an invariant
in another way. Renaming parameters, one after the other, changes nothing. -/
theorem compileExpression_scopes {d : Dialect} {text : String} {origin : Position} {f : Formula}
    (h : compileExpression d text origin = .ok f) :
    ∃ e, parseExpression d.language text origin = .ok e ∧
      (∀ c, evaluate c f = e.interpret (c.world d.vocabulary) .outermost) ∧
      (∀ c invariant, (evaluate c f).outcome ≠ .error (.broken invariant)) ∧
      ∀ e', Relation.ReflTransGen (Expr.Renames d.vocabulary) e e' →
        ∃ f', compile ⟨d, []⟩ e' = .ok f' ∧ ∀ c, evaluate c f' = evaluate c f := by
  obtain ⟨e, hparse, hcompile⟩ := Except.bind_eq_ok_iff.1 h
  refine ⟨e, hparse, evaluate_eq_interpret hcompile, ?_, ?_⟩
  · intro c invariant hbroken
    exact evaluate_isSound hcompile c _ hbroken
  · intro e' hrenames
    induction hrenames with
    | refl => exact ⟨f, hcompile, fun _ => rfl⟩
    | tail _ hstep ih =>
      obtain ⟨g, hg, hvalue⟩ := ih
      obtain ⟨f', hf', hvalue'⟩ := compile_renames hg hstep
      exact ⟨f', hf', fun c => (hvalue' c).trans (hvalue c)⟩

/-- How many items of `B` are greater than the index of each item of `A`. The inner lambda hides a
parameter `x` of the outer one. -/
def countingTree (item index : String) : Expr :=
  .binary ⟨".", .binary, 100⟩ (.name "A" ⟨1, 1⟩)
    (.call "Select"
      [.lambda [⟨item, ⟨1, 11⟩⟩, ⟨index, ⟨1, 14⟩⟩]
        (.call "Count"
          [.name "B" ⟨1, 26⟩,
           .lambda [⟨"x", ⟨1, 29⟩⟩]
            (.binary ⟨">", .binary, 50⟩ (.name "x" ⟨1, 34⟩) (.name index ⟨1, 38⟩) ⟨1, 36⟩)
            ⟨1, 29⟩]
          ⟨1, 20⟩)
        ⟨1, 10⟩]
      ⟨1, 3⟩)
    ⟨1, 2⟩

theorem countingTree_renames :
    Relation.ReflTransGen (Expr.Renames .standard) (countingTree "x" "i")
      (countingTree "y" "j") := by
  have hitem : Expr.Renames .standard (countingTree "x" "i") (countingTree "y" "i") :=
    .right _ (@Expr.Renames.argument _ _ [] [] _ _ _
      (@Expr.Renames.parameter _ [] [⟨"i", ⟨1, 14⟩⟩] "x" "y" _ _ _ (by decide) (by decide)
        (by decide) (by decide)))
  have hindex : Expr.Renames .standard (countingTree "y" "i") (countingTree "y" "j") :=
    .right _ (@Expr.Renames.argument _ _ [] [] _ _ _
      (@Expr.Renames.parameter _ [⟨"y", ⟨1, 11⟩⟩] [] "i" "j" _ _ _ (by decide) (by decide)
        (by decide) (by decide)))
  exact .tail (.single hitem) hindex

theorem compileExpression_scopes_counting :
    ∃ f f', compileExpression .standard "A.Select((x, i) => Count(B, x => x > i))" .start = .ok f ∧
      compile ⟨.standard, []⟩ (countingTree "y" "j") = .ok f' ∧
      (∀ c, evaluate c f' = (countingTree "x" "i").interpret (c.world .standard) .outermost) ∧
      ∀ c invariant, (evaluate c f).outcome ≠ .error (.broken invariant) := by
  have hparsed : parseExpression .standard "A.Select((x, i) => Count(B, x => x > i))" .start =
      .ok (countingTree "x" "i") := by
    rfl
  obtain ⟨f, hf⟩ := Except.exists_of_isOk
    (show (compileExpression .standard "A.Select((x, i) => Count(B, x => x > i))" .start).isOk by
      decide +kernel)
  obtain ⟨e, he, hvalue, hsound, hrenames⟩ := compileExpression_scopes hf
  obtain rfl := Except.ok.inj (hparsed.symm.trans he)
  obtain ⟨f', hf', hsame⟩ := hrenames _ countingTree_renames
  exact ⟨f, f', hf, hf', fun c => (hsame c).trans (hvalue c), hsound⟩

end DocQuery
