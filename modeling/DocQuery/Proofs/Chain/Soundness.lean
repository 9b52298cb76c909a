/-
No document and no query brings about a fault of the library.

* `Engine.Meets`, `Engine.QueryMeets` — the faults that are met while a text is worked on and while a
  query is answered, those of attempts that are put off among them;
* `Engine.Meets.isOrdinary`, `Engine.QueryMeets.isOrdinary` — all of them are faults of a text or of
  a value;
* `Engine.faults_are_ordinary` — so are all reports, and what such faults would break always holds.

Design notes: a report keeps the message of its fault only, so the faults that are met are described
by themselves, and every report is shown to come from one of them or from an unfinished parent.
-/
import DocQuery.Proofs.Chain.Stack
import DocQuery.Proofs.Directive.Soundness
import DocQuery.Proofs.Formula.Positions

namespace DocQuery

open Outcome
open Time (Moment)

/-! ### The standard vocabulary -/

/-- A function of the standard vocabulary gets no arguments that it does not take, and lacks none
that it does. -/
theorem FunctionMeaning.build?_isSome_iff {meaning : FunctionMeaning}
    (haggregate : ∀ a, meaning ≠ .aggregate a) (hoperation : ∀ o, meaning ≠ .operation o)
    (p : Position) (arguments : List Formula) :
    (meaning.build? p arguments).isSome ↔ meaning.arity.admits arguments.length := by
  cases meaning with
  | aggregate a => exact absurd rfl (haggregate a)
  | operation o => exact absurd rfl (hoperation o)
  | unary f => rcases arguments with _ | ⟨a, _ | ⟨b, rest⟩⟩ <;> simp [build?, arity, Arity.admits]
  | test t =>
    rcases arguments with _ | ⟨a, _ | ⟨b, _ | ⟨c, rest⟩⟩⟩ <;> simp [build?, arity, Arity.admits]
  | concatenate =>
    rcases arguments with _ | ⟨a, _ | ⟨b, rest⟩⟩ <;> simp [build?, arity, Arity.admits]
  | choose =>
    rcases arguments with _ | ⟨a, _ | ⟨b, _ | ⟨c, _ | ⟨d, rest⟩⟩⟩⟩ <;>
      simp [build?, arity, Arity.admits]
  | now => rcases arguments with _ | ⟨a, rest⟩ <;> simp [build?, arity, Arity.admits]

/-- An aggregate takes a collection, and at most a lambda behind it. -/
theorem Aggregate.length_of_admits {a : Aggregate} {n : Nat} (h : a.arity.admits n) :
    n = 1 ∨ n = 2 := by
  simp only [Arity.admits, Bool.and_eq_true, decide_eq_true_eq] at h
  cases a <;> simp only [arity, Option.all_some, decide_eq_true_eq] at h <;> omega

/-- The operators that compute a number of two numbers, or join texts, are the arithmetic ones. -/
theorem Vocabulary.arithmetic_iff {name : String} {meaning : BinaryMeaning}
    (h : standard.binary.lookup name = some meaning) :
    name ∈ ["+", "-", "*", "/", "%"] ↔
      meaning = .operation .sum ∨ ∃ o, meaning = .operation (.arithmetic o) := by
  have hmem := mem_of_lookup h
  simp only [standard, standardBinary, List.mem_cons, Prod.mk.injEq, List.not_mem_nil,
    or_false] at hmem
  rcases hmem with ⟨rfl, rfl⟩ | ⟨rfl, rfl⟩ | ⟨rfl, rfl⟩ | ⟨rfl, rfl⟩ | ⟨rfl, rfl⟩ | ⟨rfl, rfl⟩ |
    ⟨rfl, rfl⟩ | ⟨rfl, rfl⟩ | ⟨rfl, rfl⟩ | ⟨rfl, rfl⟩ | ⟨rfl, rfl⟩ | ⟨rfl, rfl⟩ | ⟨rfl, rfl⟩ |
    ⟨rfl, rfl⟩ <;> simp

/-- Only nothing has no text. -/
theorem Value.display_eq_error {p : Position} {v : Value} {fault : Fault}
    (h : v.display p = .error fault) :
    v = .undefined ∧ fault = .failed .undefinedValue p := by
  unfold display at h
  split at h
  · cases h
  · cases h
  · split at h
    · rename_i hundefined
      refine ⟨?_, (Except.error.inj h).symm⟩
      cases v <;> first | rfl | cases hundefined
    · cases h

/-! ### Faults that are met -/

namespace Engine

/-- The faults that are met while a text is worked on below finished parents: that of the text, those
of its strings, those of all attempts to compute these, and those of writing what they give. -/
inductive Meets (e : Engine) (source : SourceText) (parents : List Document) : Fault → Prop
  | reading {fault : Fault} : readJson source.text = .error fault → Meets e source parents fault
  | detecting {tree : Source} {faults : List Fault} {fault : Fault} :
    readJson source.text = .ok tree → detect e.dialect (.ofSource tree) = .error faults →
      fault ∈ faults → Meets e source parents fault
  | computing {tree : Source} {directives : List Directive} {a : Event} {fault : Fault} :
    readJson source.text = .ok tree → detect e.dialect (.ofSource tree) = .ok directives →
      a ∈ e.history source parents tree directives →
        (a.computed (e.workshop source parents)).outcome = .error fault →
          Meets e source parents fault
  | writing {tree : Source} {directives : List Directive} {a : Event} {fault : Fault} :
    readJson source.text = .ok tree → detect e.dialect (.ofSource tree) = .ok directives →
      a ∈ e.history source parents tree directives →
        a.fault? (e.workshop source parents) = some fault → Meets e source parents fault

/-- The faults that are met while a query is answered. -/
inductive QueryMeets (e : Engine) (expression : String) (documents : List Document) :
    Fault → Prop
  | compiling {fault : Fault} : compileExpression e.dialect expression .start = .error fault →
    QueryMeets e expression documents fault
  | evaluating {f : Formula} {fault : Fault} :
    compileExpression e.dialect expression .start = .ok f →
      (e.evaluateIn (queryDocument documents) f).outcome = .error fault →
        QueryMeets e expression documents fault

variable {e : Engine} {source : SourceText} {parents : List Document}

/-- No fault that is met while a text is worked on is one of the library. -/
theorem Meets.isOrdinary {fault : Fault} (h : e.Meets source parents fault) :
    fault.IsOrdinary := by
  cases h with
  | reading hread => exact readJson_isSound _ _ hread
  | detecting _ hdetect hfault => exact detect_isSound _ _ _ hdetect _ hfault
  | computing hread hdetect ha hfault => exact (history_isSound hread hdetect ha).1 _ hfault
  | writing hread hdetect ha hfault =>
    obtain ⟨hcomputed, hsits⟩ := history_isSound hread hdetect ha
    exact Event.fault?_isOrdinary hsits hcomputed hfault

/-- No fault that is met while a query is answered is one of the library. -/
theorem QueryMeets.isOrdinary {expression : String} {documents : List Document} {fault : Fault}
    (h : e.QueryMeets expression documents fault) : fault.IsOrdinary := by
  cases h with
  | compiling hcompile => exact compileExpression_isSound _ _ _ _ hcompile
  | evaluating hcompile hfault =>
    obtain ⟨tree, -, hformula⟩ := Except.bind_eq_ok_iff.1 hcompile
    exact evaluate_isSound hformula _ _ hfault

/-- The reports of the work on a text are those of faults that are met. -/
theorem exists_meets_of_mem_reports {r : Report}
    (h : r ∈ (e.compileWithParents source parents).reports) :
    ∃ fault, e.Meets source parents fault ∧ r = .ofFault source.id fault := by
  rcases hread : readJson source.text with fault | tree
  · rw [e.compileWithParents_of_malformed parents hread] at h
    exact ⟨fault, .reading hread, List.mem_singleton.1 h⟩
  · rcases hdetect : detect e.dialect (.ofSource tree) with faults | directives
    · rw [e.compileWithParents_of_faults parents hread hdetect] at h
      obtain ⟨fault, hfault, rfl⟩ := List.mem_map.1 h
      exact ⟨fault, .detecting hread hdetect hfault, rfl⟩
    · rw [e.compileWithParents_eq parents hread hdetect] at h
      obtain ⟨fault, hfault, rfl⟩ := List.mem_map.1 h
      rw [(e.trail_history source parents tree directives).faults_eq, List.nil_append] at hfault
      obtain ⟨a, ha, hreport⟩ := List.mem_filterMap.1 hfault
      exact ⟨fault, .writing hread hdetect ha hreport, rfl⟩

/-- The reports of a chain are those of faults that are met, and those of documents above an
unfinished one. -/
theorem exists_meets_of_mem_compile {chain : List SourceText} {r : Report}
    (h : r ∈ (e.compile chain).reports) :
    (∃ source ∈ chain, ∃ parents fault, e.Meets source parents fault ∧
      r = .ofFault source.id fault) ∨
    ∃ source ∈ chain, ∃ parent ∈ chain, r = parentReport source.id parent.id := by
  have hfinished : ∀ {chain documents reports}, e.Stacks chain documents reports →
      ∀ r ∈ reports, ∃ source ∈ chain, ∃ parents fault, e.Meets source parents fault ∧
        r = .ofFault source.id fault := by
    intro chain documents reports hstacks
    induction hstacks with
    | nil => exact fun r hr => absurd hr List.not_mem_nil
    | @cons source below documents d reports more _ hmade ih =>
      intro r hr
      rcases List.mem_append.1 hr with hr | hr
      · obtain ⟨s, hs, hrest⟩ := ih r hr
        exact ⟨s, List.mem_cons_of_mem _ hs, hrest⟩
      · refine ⟨source, List.mem_cons_self, documents.head?.toList, ?_⟩
        exact exists_meets_of_mem_reports (by rw [hmade]; exact hr)
  rcases e.stacks_or_breaks chain with ⟨documents, reports, hstacks⟩ |
    ⟨above, source, below, documents, reports, more, rfl, hbreaks⟩
  · rw [compile, hstacks.compileChain_eq] at h
    exact .inl (hfinished hstacks r h)
  · rw [compile, hbreaks.compileChain_eq, List.mem_append, List.mem_append] at h
    have hsource : source ∈ above ++ source :: below := by simp
    rcases h with (h | h) | h
    · obtain ⟨s, hs, hrest⟩ := hfinished hbreaks.below r h
      exact .inl ⟨s, by simp [hs], hrest⟩
    · refine .inl ⟨source, hsource, documents.head?.toList, ?_⟩
      exact exists_meets_of_mem_reports (by rw [hbreaks.unfinished]; exact h)
    · obtain ⟨s, hs, rfl⟩ := List.mem_map.1 h
      exact .inr ⟨s, List.mem_append_left _ (List.mem_reverse.1 hs), source, hsource, rfl⟩

/-- The report of a query is that of the fault that is met. -/
theorem exists_queryMeets_of_mem_reports {expression : String} {documents : List Document}
    {r : Report} (h : r ∈ (e.query expression documents).reports) :
    ∃ fault, e.QueryMeets expression documents fault ∧ r = .ofFault queryId fault := by
  rcases e.query_eq expression with ⟨fault, hcompile, heq⟩ | ⟨f, hcompile, heq⟩
  · rw [heq] at h
    exact ⟨fault, .compiling hcompile, List.mem_singleton.1 h⟩
  · rw [heq] at h
    split at h
    · cases h
    · rename_i fault hfault
      exact ⟨fault, .evaluating hcompile hfault, List.mem_singleton.1 h⟩

/-- With the standard dialect, no fault that is met while texts are worked on and queries are answered
is one of the library, and what such a fault would break holds: a function that is called has all
its arguments, only arithmetic operators compute numbers, every value but nothing has a text, and
when it is their turn, members to copy are still members, items to merge are still items, and a
string with expressions gives a text. -/
theorem faults_are_ordinary (options : Options) (now : Moment) :
    let e : Engine := ⟨.standard, options, now⟩
    (∀ source parents fault, e.Meets source parents fault → fault.IsOrdinary) ∧
    (∀ expression documents fault, e.QueryMeets expression documents fault →
      fault.IsOrdinary) ∧
    (∀ chain, ∀ r ∈ (e.compile chain).reports,
      (∃ source ∈ chain, ∃ parents fault, e.Meets source parents fault ∧
        r = .ofFault source.id fault) ∨
      ∃ source ∈ chain, ∃ parent ∈ chain, r = parentReport source.id parent.id) ∧
    (∀ expression documents, ∀ r ∈ (e.query expression documents).reports,
      ∃ fault, e.QueryMeets expression documents fault ∧ r = .ofFault queryId fault) ∧
    (∀ name meaning, Vocabulary.standard.functions.lookup name = some meaning →
      (∃ a, meaning = .aggregate a ∧ ∀ n, a.arity.admits n → n = 1 ∨ n = 2) ∨
      ∀ p arguments, (meaning.build? p arguments).isSome ↔
        meaning.arity.admits arguments.length) ∧
    (∀ name meaning, Vocabulary.standard.binary.lookup name = some meaning →
      (name ∈ ["+", "-", "*", "/", "%"] ↔
        meaning = .operation .sum ∨ ∃ o, meaning = .operation (.arithmetic o))) ∧
    (∀ (p : Position) (v : Value), v ≠ .undefined → ∃ text, v.display p = .ok text) ∧
    ∀ source parents tree directives, readJson source.text = .ok tree →
      detect e.dialect (.ofSource tree) = .ok directives →
      ∀ a ∈ e.history source parents tree directives,
        a.directive.action.SitsIn (a.before.draft.slot? a.directive.cell) ∧
        ∀ parts v, a.directive.action = .interpolate parts →
          (a.computed (e.workshop source parents)).outcome = .ok v → ∃ text, v = .text text := by
  intro e
  refine ⟨fun _ _ _ h => h.isOrdinary, fun _ _ _ h => h.isOrdinary,
    fun _ _ h => exists_meets_of_mem_compile h, fun _ _ _ h => exists_queryMeets_of_mem_reports h,
    ?_, fun _ _ h => Vocabulary.arithmetic_iff h, ?_, ?_⟩
  · intro name meaning h
    have hoperation : ∀ o, meaning ≠ .operation o := by
      rintro o rfl
      have hmem := Vocabulary.mem_of_lookup h
      simp [Vocabulary.standard, Vocabulary.standardFunctions] at hmem
    by_cases haggregate : ∃ a, meaning = .aggregate a
    · obtain ⟨a, rfl⟩ := haggregate
      exact .inl ⟨a, rfl, fun n => Aggregate.length_of_admits⟩
    · refine .inr (FunctionMeaning.build?_isSome_iff (fun a ha => ?_) hoperation)
      exact haggregate ⟨a, ha⟩
  · intro p v hv
    rcases hdisplay : v.display p with fault | text
    · exact absurd (Value.display_eq_error hdisplay).1 hv
    · exact ⟨text, rfl⟩
  · intro source parents tree directives hread hdetect a ha
    refine ⟨(history_isSound hread hdetect ha).2, fun parts v haction hv => ?_⟩
    rw [Event.computed, haction] at hv
    exact Action.compute_interpolate hv

theorem faults_are_ordinary_assertion :
    let e := Engine.standard (.midnight ⟨2024, 1, 1⟩)
    let chain := [⟨"D", "\x7b\"A\":\"$value(X assert)\"\x7d"⟩]
    ∃ r ∈ (e.compile chain).reports, ∃ parents fault,
      e.Meets ⟨"D", "\x7b\"A\":\"$value(X assert)\"\x7d"⟩ parents fault ∧ fault.IsOrdinary ∧
        r = .ofFault "D" fault := by
  intro e chain
  have hreports : (e.compile chain).reports.length = 1 := by decide +kernel
  obtain ⟨r, hr⟩ := List.length_eq_one_iff.1 hreports
  have hmem : r ∈ (e.compile chain).reports := by
    rw [hr]
    exact List.mem_singleton_self r
  obtain ⟨hmeets, -, hcompile, -⟩ := faults_are_ordinary .standard (.midnight ⟨2024, 1, 1⟩)
  rcases hcompile chain r hmem with ⟨source, hsource, parents, fault, hfault, hreport⟩ |
    ⟨source, hsource, parent, hparent, hreport⟩
  · obtain rfl := List.mem_singleton.1 hsource
    exact ⟨r, hmem, parents, fault, hfault, hmeets _ _ _ hfault, hreport⟩
  · -- the only document has no parent that could have failed
    obtain rfl := List.mem_singleton.1 hsource
    obtain rfl := List.mem_singleton.1 hparent
    rw [hreport] at hr
    have hmessage : (e.compile chain).reports.map (·.message) ≠
        ["parent document 'D' failed to compile"] := by decide +kernel
    rw [hr] at hmessage
    exact absurd rfl hmessage

end Engine

end DocQuery
