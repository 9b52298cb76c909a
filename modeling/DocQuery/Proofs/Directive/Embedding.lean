/-
An expression is worth the same in a query and in a document.

* `callText` — the document whose only member is computed from an expression;
* `solve_singleDraft` — it is finished by one attempt;
* `Engine.query_agrees_with_call` — the member has the value of the query, is gone if there is none,
  or the document has the report of the query.

Design notes: the document has one cell for its text and one around it, so its work is a single
attempt, which nothing else can defer. The two roots differ, but only for lookups that begin with
the root itself or with the one member that the document has; everything else is searched in the
same ancestors. Where the expression stands differs too, so reports are compared by their messages.
-/
import DocQuery.Proofs.Directive.Enclosure
import DocQuery.Proofs.Directive.Invariant
import DocQuery.Proofs.Expr.Moving
import DocQuery.Proofs.Formula.Placeless
import DocQuery.Proofs.Source.RoundTrip

namespace DocQuery

/-! ### The document of one expression -/

/-- The string that is computed from an expression. -/
def callOf (expression : String) : String := "$value(" ++ expression ++ ")"

/-- The JSON text of a document whose only member `name` is computed from an expression. -/
def callText (name expression : String) : String :=
  (Json.object [(name, .text (callOf expression))]).compact

/-- The draft of an object whose only member is the string `text`. -/
def singleDraft (name text : String) (columns : Option (List Nat)) (here around : Position) :
    Draft :=
  ⟨#[⟨.scalar (.quoted text), here, columns⟩, ⟨.object [(name, 0)], around, none⟩], 1⟩

/-- The text of such a document is read as such an object. -/
theorem exists_read_callText (name expression : String) :
    ∃ tree columns here around, readJson (callText name expression) = .ok tree ∧
      Draft.ofSource tree = singleDraft name (callOf expression) columns here around := by
  have hplain : (Json.object [(name, .text (callOf expression))]).IsPlain 128 :=
    .object (List.pairwise_singleton _ _) (by
      simp only [List.forall_mem_singleton]
      exact .text _ _)
  have hwritten : (Json.object [(name, .text (callOf expression))]).outline.IsWritten
      (callText name expression).toList := by
    rw [callText, Json.compact, String.toList_ofList]
    exact ⟨Json.spells_write hplain, hplain.fits_outline⟩
  obtain ⟨tree, htree, houtline⟩ := exists_readJson hwritten
  cases tree with
  | array items p => cases houtline
  | scalar s columns p => cases houtline
  | object members p =>
    have hmembers : Source.memberOutlines members =
        [(name, .scalar (.quoted (callOf expression)))] := Outline.object.inj houtline
    cases members with
    | nil => cases hmembers
    | cons m members =>
      obtain ⟨hfirst, hrest⟩ := List.cons.inj hmembers
      obtain ⟨hname, hvalue⟩ := Prod.mk.inj hfirst
      obtain ⟨k, value⟩ := m
      cases members with
      | cons => cases hrest
      | nil =>
        cases value with
        | object => cases hvalue
        | array => cases hvalue
        | scalar s columns q =>
          obtain rfl : s = .quoted (callOf expression) := Outline.scalar.inj hvalue
          obtain rfl : k = name := hname
          exact ⟨_, columns, q, p, htree, rfl⟩

section Work

variable {name text expression : String} {columns : Option (List Nat)} {here around : Position}

theorem toList_callOf (expression : String) :
    (callOf expression).toList = valueMarker ++ expression.toList ++ [')'] := by
  rw [callOf, String.toList_append, String.toList_append]
  rfl

/-- The string is a call of the whole expression. -/
theorem stringAction_callOf {tree : Expr} {origin : Position} (c : Cell) (slot : Option Slot)
    (hparse : parseExpression .standard expression origin = .ok tree) :
    stringAction .standard c slot (callOf expression).toList =
      (compileIn .standard expression.toList (c.textPosition valueMarker.length)).map
        fun f => some (.value f) := by
  rw [toList_callOf]
  exact stringAction_of_value
    (isEnclosed_of_parse Language.standard_hasPlainSymbols (by decide) hparse)

/-- The only directive of the document is the call. -/
theorem detect_singleDraft (columns : Option (List Nat)) (here around : Position) {tree : Expr}
    {origin : Position} (hname : name ≠ copyFieldsName)
    (hparse : parseExpression .standard expression origin = .ok tree) :
    detect .standard (singleDraft name (callOf expression) columns here around) =
      ((compileExpression .standard expression
        (Cell.textPosition ⟨.scalar (.quoted (callOf expression)), here, columns⟩
          valueMarker.length)).mapError fun fault => [fault]).map fun f => [⟨0, .value f⟩] := by
  have horder : (singleDraft name (callOf expression) columns here around).order = [1, 0] := rfl
  have hroot : directiveOf .standard (singleDraft name (callOf expression) columns here around) 1 =
      .ok none := rfl
  have hcall : directiveOf .standard (singleDraft name (callOf expression) columns here around) 0 =
      (cellAction .standard ⟨.scalar (.quoted (callOf expression)), here, columns⟩
        (some (.member 1 name))).map fun action => action.map fun a => ⟨0, a⟩ := rfl
  have hother : (some (Slot.member 1 name)).any Slot.isCopyFields = false := by
    simpa [Slot.isCopyFields] using hname
  rw [cellAction, hother, if_neg (by simp)] at hcall
  rw [detect, horder, directivesOf, directivesOf, directivesOf, hroot, hcall]
  simp only [Scalar.quoted]
  rw [stringAction_callOf _ _ hparse, compileIn, String.ofList_toList]
  rcases compileExpression _ _ _ with fault | f <;> rfl

/-- The work is one attempt of the call, whose result is written in its place. -/
theorem solve_singleDraft (w : Workshop) (f : Formula) :
    w.solve 1 ⟨singleDraft name text columns here around, []⟩ [⟨0, .value f⟩] =
      Workshop.State.write w ⟨singleDraft name text columns here around, []⟩ ⟨0, .value f⟩
        (evaluate (w.context (singleDraft name text columns here around)) f).outcome := by
  have hattached : (singleDraft name text columns here around).isAttached 0 = true := by
    have hslot : (singleDraft name text columns here around).slot? 0 =
        some (.member 1 name) := rfl
    rw [Draft.isAttached, hslot]
    rfl
  have hround : w.round ⟨singleDraft name text columns here around, []⟩ [] [⟨0, .value f⟩] =
      (Workshop.State.write w ⟨singleDraft name text columns here around, []⟩ ⟨0, .value f⟩
        (evaluate (w.context (singleDraft name text columns here around)) f).outcome, []) := by
    have htouches : ((Action.value f).compute (w.context
        (singleDraft name text columns here around))).touches
          (pendingPaths w (singleDraft name text columns here around) []) = false := by
      simp [Traced.touches, pendingPaths]
    rw [Workshop.round, if_pos hattached]
    show (if _ then _ else _) = _
    rw [List.append_nil, htouches]
    rfl
  rw [Workshop.solve, hround]
  · rfl
  · simp

end Work

/-! ### The two contexts -/

/-- Where lookups may begin so that the root of the current document and its own members of a name
play no part. -/
def BeginsElsewhere (name : String) : Start → Prop
  | .property n .all => n ≠ name
  | .property _ .inherited | .parent | .parameter _ _ _ => True
  | .property _ .own | .this => False

theorem opens_elsewhere {name n : String} (hthis : n ≠ "this") (hname : n ≠ name) :
    Opens (BeginsElsewhere name) n := by
  refine ⟨hname, fun q hq => ?_⟩
  rw [Qualifier.ofName?, if_neg hthis] at hq
  split at hq
  · obtain rfl := Option.some.inj hq
    exact ⟨trivial, fun _ => trivial⟩
  · cases hq

/-- A formula cannot tell the empty document of a query from a document with one member unless it
begins with the root or with that member. -/
theorem context_singleDraft (e : Engine) (id : String) (documents : List Document)
    (name text : String) (columns : Option (List Nat)) (here around : Position) :
    Context.Corresponds (.placeless Anywhere) (BeginsElsewhere name)
      ⟨Engine.queryDocument documents, e.options, e.now, []⟩
      (Workshop.context ⟨id, documents, e.options, e.now⟩
        (singleDraft name text columns here around)) where
  options_eq := rfl
  now_eq := rfl
  root_path := trivial
  computed _ := rfl
  property n scope hn := by
    have hrefl (found : Option Node) :
        Option.Rel (Correspondence.placeless Anywhere).node found found := by
      cases found with
      | none => exact .none
      | some m => exact .some rfl
    cases scope with
    | own => exact hn.elim
    | inherited => exact hrefl _
    | all =>
      -- neither root has the member, so both go on with the ancestors
      have hroot : (Node.object (.at (.root queryId)) []).member? n = none := rfl
      have hother : ((singleDraft name text columns here around).freeze id).member? n = none := by
        show List.lookup n [(name, _)] = none
        rw [List.lookup_cons, beq_eq_false_iff_ne.2 hn]
        rfl
      show Option.Rel _ (Page.firstMember? n (_ :: _)) (Page.firstMember? n (_ :: _))
      rw [Page.firstMember?, Page.firstMember?, List.findSome?_cons, List.findSome?_cons]
      simp only [Engine.queryDocument, Document.ofParents, Workshop.context, hroot, hother]
      exact hrefl _
  this h := h.elim
  parent _ := by
    show Option.Rel _ ((Document.ancestorsOf documents).head?.map (·.root))
      ((Document.ancestorsOf documents).head?.map (·.root))
    cases (Document.ancestorsOf documents).head? with
    | none => exact .none
    | some page => exact .some rfl
  bindings := .nil

/-! ### The two results -/

section Results

variable {name text : String} {columns : Option (List Nat)} {here around : Position}

/-- What the document holds once the result of its call has been written. -/
theorem member?_written (w : Workshop) (f : Formula) {v : Value} (hv : v ≠ .undefined) :
    ∃ draft m, Workshop.State.write w ⟨singleDraft name text columns here around, []⟩
        ⟨0, .value f⟩ (.ok v) = ⟨draft, []⟩ ∧
      (draft.freeze w.id).member? name = some m ∧ m.toJson = v.asJson := by
  rcases hplaced : v.placedIn w.id with _ | n
  · exact absurd (Value.placedIn_eq_none_iff.1 hplaced) hv
  · have hwritten : Workshop.State.write w ⟨singleDraft name text columns here around, []⟩
        ⟨0, .value f⟩ (.ok v) =
          ⟨(singleDraft name text columns here around).setContent 0 (.imported n), []⟩ := by
      simp only [Workshop.State.write, Draft.write, Draft.writeValue, hplaced]
      rfl
    refine ⟨_, _, hwritten, ?_,
      (n.toJson_moved ((Path.root w.id).member name)).trans (Value.toJson_placedIn hplaced)⟩
    show List.lookup name [(name, _)] = some _
    rw [List.lookup_cons, beq_self_eq_true]
    rfl

/-- Nothing is left of a call that finds nothing. -/
theorem member?_removed (w : Workshop) (f : Formula) (hremoves : w.options.removesUndefined) :
    ∃ draft, Workshop.State.write w ⟨singleDraft name text columns here around, []⟩
        ⟨0, .value f⟩ (.ok .undefined) = ⟨draft, []⟩ ∧
      (draft.freeze w.id).member? name = none := by
  have hslot : (singleDraft name text columns here around).slot? 0 = some (.member 1 name) := rfl
  have hwritten : Workshop.State.write w ⟨singleDraft name text columns here around, []⟩
      ⟨0, .value f⟩ (.ok .undefined) =
        ⟨(singleDraft name text columns here around).without 0, []⟩ := by
    have hplaced : Value.undefined.placedIn w.id = none := Value.placedIn_eq_none_iff.2 rfl
    simp only [Workshop.State.write, Draft.write, Draft.writeValue, hplaced, hremoves, if_true]
    rfl
  refine ⟨_, hwritten, ?_⟩
  have hgone : [(name, 0)].filter (fun m => m.1 != name) = ([] : List (String × Nat)) := by
    simp
  rw [Draft.without, Draft.remove?, hslot]
  show List.lookup name (List.foldl _ [] (List.map _ ([(name, 0)].filter _))) = none
  rw [hgone]
  rfl

end Results

namespace Engine

/-- A call whose expression has no formula makes the whole document malformed. -/
theorem compile_call_error (options : Options) (now : Time.Moment) (id : String)
    (documents : List Document) {name expression : String} {tree : Expr} {origin : Position}
    (hname : name ≠ copyFieldsName)
    (hparse : parseExpression .standard expression origin = .ok tree) {fault : Fault}
    (hfault : ∀ p, ∃ fault', compileExpression .standard expression p = .error fault' ∧
      fault'.message = fault.message) :
    ∃ r, compileWithParents ⟨.standard, options, now⟩ ⟨id, callText name expression⟩ documents =
        ⟨[], [r]⟩ ∧
      r.message = fault.message := by
  obtain ⟨tree, columns, here, around, hread, hdraft⟩ := exists_read_callText name expression
  have hdetect := detect_singleDraft columns here around hname hparse
  obtain ⟨fault', hfault', hmessage⟩ := hfault
    (Cell.textPosition ⟨.scalar (.quoted (callOf expression)), here, columns⟩ valueMarker.length)
  rw [hfault'] at hdetect
  refine ⟨.ofFault id fault', ?_, hmessage⟩
  rw [compileWithParents, compileDocument, hread]
  simp only [Workshop.run, hdraft, hdetect]
  rfl

/-- Otherwise its formula is evaluated once, in the document with nothing but the call. -/
theorem compile_call_ok (options : Options) (now : Time.Moment) (id : String)
    (documents : List Document) {name expression : String} {tree : Expr} {origin : Position}
    (hname : name ≠ copyFieldsName)
    (hparse : parseExpression .standard expression origin = .ok tree) {P : Formula → Prop}
    (hformula : ∀ p, ∃ f, compileExpression .standard expression p = .ok f ∧ P f) :
    ∃ columns here around f, P f ∧
      let w : Workshop := ⟨id, documents, options, now⟩
      let draft := singleDraft name (callOf expression) columns here around
      let last := Workshop.State.write w ⟨draft, []⟩ ⟨0, .value f⟩
        (evaluate (w.context draft) f).outcome
      compileWithParents ⟨.standard, options, now⟩ ⟨id, callText name expression⟩ documents =
        ⟨[.ofParents ⟨id, last.draft.freeze id⟩ documents], last.faults.map (.ofFault id)⟩ := by
  obtain ⟨tree, columns, here, around, hread, hdraft⟩ := exists_read_callText name expression
  obtain ⟨f, hf, hP⟩ := hformula
    (Cell.textPosition ⟨.scalar (.quoted (callOf expression)), here, columns⟩ valueMarker.length)
  have hdetect := detect_singleDraft columns here around hname hparse
  rw [hf] at hdetect
  refine ⟨columns, here, around, f, hP, ?_⟩
  rw [← hdraft] at hdetect
  have hsource : readJson (SourceText.mk id (callText name expression)).text = .ok tree := hread
  rw [compileWithParents_eq ⟨.standard, options, now⟩ documents hsource hdetect]
  simp only [finalState, workshop, hdraft, List.length_singleton, solve_singleDraft]

/-- A text that is parsed has the formula of its tree. -/
theorem compileExpression_of_parse {expression : String} {tree : Expr} {p : Position}
    (hparse : parseExpression .standard expression p = .ok tree) :
    compileExpression .standard expression p =
      DocQuery.compile (⟨.standard, []⟩ : Naming) tree :=
  congrArg (· >>= DocQuery.compile (⟨.standard, []⟩ : Naming)) hparse

/-- Wherever an expression stands, it has the same formula but for positions, or the same fault. -/
theorem compileExpression_moved {name expression : String} {tree : Expr}
    (hparse : parseExpression .standard expression .start = .ok tree)
    (hthis : "this" ∉ tree.openings true) (hself : name ∉ tree.openings true) (p : Position) :
    (Correspondence.placeless Anywhere).Outcomes
      (Formula.Corresponds (.placeless Anywhere) (BeginsElsewhere name))
      (compileExpression .standard expression .start)
      (compileExpression .standard expression p) := by
  have hopens : ∀ n ∈ tree.openings true, Opens (BeginsElsewhere name) n := by
    intro n hn
    refine opens_elsewhere ?_ ?_
    · rintro rfl
      exact hthis hn
    · rintro rfl
      exact hself hn
  obtain ⟨tree', hparse', hshape⟩ := parseExpression_moved hparse p
  rw [compileExpression_of_parse hparse, compileExpression_of_parse hparse']
  exact compile_corresponds (s := ⟨.standard, []⟩) (fun _ _ _ => trivial)
    (Vocabulary.standard_keeps _) hshape hopens

/-- A query and a document whose only member is computed from the same expression agree, unless a
lookup of the expression begins with the root of the current document or with that member. If the
query has a value, the member is the same JSON and there is no report. If it finds nothing, the
member is gone and there is no report. If it fails, there is one report in both, of one message. -/
theorem query_agrees_with_call (options : Options) (now : Time.Moment) (id : String)
    (documents : List Document) {name expression : String} {tree : Expr}
    (hname : name ≠ copyFieldsName)
    (hparse : parseExpression .standard expression .start = .ok tree)
    (hthis : "this" ∉ tree.openings true) (hself : name ∉ tree.openings true) :
    let e : Engine := ⟨.standard, options, now⟩
    let answer := e.query expression documents
    let compiled := e.compileWithParents ⟨id, callText name expression⟩ documents
    (∀ n, answer.value = some n → answer.reports = [] ∧ compiled.reports = [] ∧
      ∃ d m, compiled.documents = [d] ∧ d.root.member? name = some m ∧ m.toJson = n.toJson) ∧
    (answer.value = none → answer.reports = [] → options.removesUndefined →
      compiled.reports = [] ∧ ∃ d, compiled.documents = [d] ∧ d.root.member? name = none) ∧
    (answer.reports ≠ [] → ∃ r r', answer.reports = [r] ∧ compiled.reports = [r'] ∧
      r'.message = r.message) := by
  intro e answer compiled
  have hmoved := compileExpression_moved hparse hthis hself
  rcases e.query_eq expression with ⟨fault, hfault, hquery⟩ | ⟨f, hf, hquery⟩
  · -- the expression has no formula
    have hfaults (p : Position) : ∃ fault',
        compileExpression .standard expression p = .error fault' ∧
          fault'.message = fault.message := by
      have hboth := hmoved p
      rw [show compileExpression .standard expression .start = .error fault from hfault] at hboth
      generalize compileExpression .standard expression p = outcome at hboth ⊢
      cases hboth with
      | error h => exact ⟨_, rfl, h.message_eq⟩
    obtain ⟨r, hcompiled, hmessage⟩ :=
      compile_call_error options now id documents hname hparse hfaults
    have hanswer : answer = ⟨none, [.ofFault queryId fault]⟩ := hquery documents
    have hresult : compiled = ⟨[], [r]⟩ := hcompiled
    rw [hanswer, hresult]
    refine ⟨nofun, fun _ h => absurd h (List.cons_ne_nil _ _), fun _ => ?_⟩
    exact ⟨_, r, rfl, rfl, hmessage⟩
  · have hformulas (p : Position) : ∃ f', compileExpression .standard expression p = .ok f' ∧
        f.Corresponds (.placeless Anywhere) (BeginsElsewhere name) f' := by
      have hboth := hmoved p
      rw [show compileExpression .standard expression .start = .ok f from hf] at hboth
      generalize compileExpression .standard expression p = outcome at hboth ⊢
      cases hboth with
      | ok h => exact ⟨_, rfl, h⟩
    obtain ⟨columns, here, around, f', hcorresponds, hcompiled⟩ :=
      compile_call_ok options now id documents hname hparse hformulas
    have hruns := (evaluate_corresponds
      (context_singleDraft e id documents name (callOf expression) columns here around)
        hcorresponds).outcome
    have hanswer : answer = _ := hquery documents
    have hresult : compiled = _ := hcompiled
    rw [hanswer, hresult]
    clear hanswer hresult hquery hcompiled
    generalize (evaluate ⟨queryDocument documents, e.options, e.now, []⟩ f).outcome = x at hruns ⊢
    simp only
    generalize (evaluate (Workshop.context ⟨id, documents, e.options, e.now⟩
      (singleDraft name (callOf expression) columns here around)) f').outcome = y at hruns ⊢
    cases hruns with
    | error hfault =>
      refine ⟨nofun, fun _ h => absurd h (List.cons_ne_nil _ _), fun _ => ?_⟩
      exact ⟨_, _, rfl, rfl, hfault.message_eq⟩
    | @ok v v' hv =>
      refine ⟨fun n hn => ?_, fun hnone _ hremoves => ?_, fun h => absurd rfl h⟩
      · have hdefined : v' ≠ .undefined := by
          rw [Ne, hv.eq_undefined_iff, ← Value.toNode?_eq_none_iff]
          exact ne_of_eq_of_ne hn nofun
        obtain ⟨draft, m, hwritten, hmember, hjson⟩ :=
          member?_written ⟨id, documents, e.options, e.now⟩ f' hdefined
        rw [hwritten]
        refine ⟨rfl, rfl, _, m, rfl, hmember, ?_⟩
        rw [hjson, hv.asJson_eq, Value.toJson_toNode? hn]
      · obtain rfl := hv.eq_undefined_iff.2 (Value.toNode?_eq_none_iff.1 hnone)
        obtain ⟨draft, hwritten, hmember⟩ :=
          member?_removed ⟨id, documents, e.options, e.now⟩ f' hremoves
        rw [hwritten]
        exact ⟨rfl, _, rfl, hmember⟩

/-- A document with a list and with a name that occurs in it. -/
def crew : Document :=
  let here := Path.root "crew"
  .ofParents ⟨"crew", .object (.at here) [
    ("captain", .scalar (.at (here.member "captain")) (.quoted "Ann")),
    ("names", .array (.at (here.member "names")) [
      .scalar (.at ((here.member "names").item 0)) (.quoted "Ann"),
      .scalar (.at ((here.member "names").item 1)) (.quoted "Bob")])]⟩ []

theorem query_agrees_with_call_filtered :
    let e := Engine.standard (.midnight ⟨2024, 1, 1⟩)
    let expression := "names.Where(n => n != captain)"
    let compiled := e.compileWithParents ⟨"D", callText "V" expression⟩ [crew]
    ∃ n, (e.query expression [crew]).value = some n ∧
      (e.query expression [crew]).reports = [] ∧ compiled.reports = [] ∧
        ∃ d m, compiled.documents = [d] ∧ d.root.member? "V" = some m ∧ m.toJson = n.toJson := by
  intro e expression compiled
  have hopenings : (parseExpression .standard expression .start).toOption.map
      (fun tree => decide ("this" ∉ tree.openings true ∧ "V" ∉ tree.openings true)) =
        some true := by
    decide +kernel
  obtain ⟨tree, htree, hholds⟩ := Option.map_eq_some_iff.1 hopenings
  obtain ⟨hthis, hself⟩ := of_decide_eq_true hholds
  obtain ⟨n, hn⟩ := Option.isSome_iff_exists.1
    (show (e.query expression [crew]).value.isSome by decide +kernel)
  exact ⟨n, hn, (query_agrees_with_call e.options e.now "D" [crew] (by decide)
    (Except.toOption_eq_some_iff.1 htree) hthis hself).1 n hn⟩

end Engine

end DocQuery
