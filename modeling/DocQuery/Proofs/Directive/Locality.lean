/-
Directives change their own places only.

* `Event.outcome?` — the outcome that an event writes, if it settles its directive;
* `Event.Rewrites` — an event whose directive rewrites the document as its action demands, at the
  place of its string;
* `Engine.exists_rewrites_of_mem_history` — every event of the work that writes an outcome does so;
* `Engine.directives_change_their_places` — and what is left in the end is the text around them.

Design notes: that only the place of a directive changes is a fact about one event. What the whole
work leaves as it was follows from the edits that its events make together, since a value may move
while others are merged before it.
-/
import DocQuery.Proofs.Directive.Literal
import DocQuery.Proofs.Directive.Rewriting
import DocQuery.Proofs.Directive.Soundness
import DocQuery.Proofs.Directive.Survival
import DocQuery.Proofs.Source.Outline

namespace DocQuery

open Workshop (State)

namespace Event

/-- The outcome that an event writes: what the action of its directive gives, or the fault of one
that waits for itself. -/
def outcome? (w : Workshop) (a : Event) : Option (Except Fault Value) :=
  match a.fate with
  | .written => some (a.computed w).outcome
  | .circular => some (.error (Workshop.circularity a.before.draft a.directive))
  | .deferred | .skipped => none

/-- Whether keys lead to the string of the directive of an event, and the event rewrites the
document there as the outcome demands. -/
structure Rewrites (w : Workshop) (a : Event) (outcome : Except Fault Value) (keys : List Key) :
    Prop where
  leads : a.before.draft.Leads a.before.draft.root keys a.directive.cell
  string : ∃ text, (a.before.draft.freeze w.id).at? keys =
    some (.scalar (.at ⟨w.id, keys⟩) ⟨text, true⟩)
  rewrites : a.directive.action.Rewrites w keys outcome (a.before.draft.freeze w.id)
    ((a.after w).draft.freeze w.id) (a.fault? w)

variable {w : Workshop} {a : Event} {outcome : Except Fault Value}

theorem write_of_outcome? (h : a.outcome? w = some outcome) :
    (a.after w).draft = (a.before.draft.write w a.directive outcome).1 ∧
      a.fault? w = (a.before.draft.write w a.directive outcome).2 := by
  rcases a with ⟨x, others, s, fate⟩
  cases fate with
  | written =>
    obtain rfl := Option.some.inj h
    exact ⟨rfl, rfl⟩
  | circular =>
    obtain rfl := Option.some.inj h
    exact ⟨rfl, rfl⟩
  | deferred => cases h
  | skipped => cases h

/-- What writes no outcome leaves everything as it was. -/
theorem unchanged_of_outcome? (h : a.outcome? w = none) (hfate : a.fate ≠ .skipped) :
    a.settles = false ∧ a.after w = a.before ∧ a.fault? w = none := by
  rcases a with ⟨x, others, s, fate⟩
  cases fate with
  | written => cases h
  | circular => cases h
  | deferred => exact ⟨rfl, rfl, rfl⟩
  | skipped => exact absurd rfl hfate

/-- The text of a string with expressions is a text. -/
theorem text_of_outcome? {parts : List Part} {v : Value}
    (haction : a.directive.action = .interpolate parts) (h : a.outcome? w = some (.ok v)) :
    ∃ text, v = .text text := by
  rcases a with ⟨x, others, s, fate⟩
  cases fate with
  | written =>
    have hcomputed : (x.action.compute (w.context s.draft)).outcome = .ok v := Option.some.inj h
    rw [show x.action = .interpolate parts from haction] at hcomputed
    exact Action.compute_interpolate hcomputed
  | circular => cases h
  | deferred => cases h
  | skipped => cases h

end Event

namespace Engine

open Correspondence (addressed_isFaithful)

variable {e : Engine} {source : SourceText} {parents : List Document} {tree : Source}
  {directives : List Directive} {a : Event}

/-- The drafts of all states of the work hold well addressed values. -/
theorem holdsAddressed_of_mem_states (hv : e.dialect.vocabulary.Keeps .addressed)
    (hparents : ∀ p ∈ parents, p.IsCompiled) {s : State}
    (hs : s ∈ e.states source parents tree) : s.draft.HoldsAddressed := by
  have hw := e.workshop_addressed source fun p hp => (isAddressed_of_isCompiled (hparents p hp)).1
  exact (states_correspond addressed_isFaithful (fun _ => rfl) hv hw hs).holdsAddressed

/-- Every event that writes an outcome rewrites the document at the place of its string, and as the
outcome demands. -/
theorem exists_rewrites_of_mem_history (hv : e.dialect.vocabulary.Keeps .addressed)
    (hparents : ∀ p ∈ parents, p.IsCompiled) (hread : readJson source.text = .ok tree)
    (hdetect : detect e.dialect (.ofSource tree) = .ok directives)
    (ha : a ∈ e.history source parents tree directives) {outcome : Except Fault Value}
    (houtcome : a.outcome? (e.workshop source parents) = some outcome) :
    ∃ keys, a.Rewrites (e.workshop source parents) outcome keys := by
  have htrail := e.trail_history source parents tree directives
  have hbefore := (htrail.isSound (isSound_start hread hdetect)).2 a ha
  have hfits := hbefore.fits a.directive List.mem_cons_self
  have hsits := (history_isSound hread hdetect ha).2
  obtain ⟨hstate, hstate'⟩ := before_mem_states hdetect ha
  obtain ⟨hdraft, hfault⟩ := Event.write_of_outcome? houtcome
  obtain ⟨keys, hleads⟩ := hfits.reached
  obtain ⟨text, htext⟩ := hfits.text
  refine ⟨keys, hleads, ⟨text, ?_⟩, ?_⟩
  · obtain ⟨fuel, -, hat⟩ := hbefore.tree.at?_freeze hleads source.id
    rw [Draft.freezeFrom_scalar htext] at hat
    exact hat
  · have haddressed := holdsAddressed_of_mem_states hv hparents hstate'
    rw [hdraft] at haddressed ⊢
    rw [hfault]
    refine Draft.write_rewrites hbefore.tree (holdsAddressed_of_mem_states hv hparents hstate) hfits
      hsits hleads ?_ haddressed
    rintro parts v haction rfl
    exact Event.text_of_outcome? haction houtcome

/-- The work on a text edits nothing but the strings of its directives and their places. -/
theorem editedBy_finalState (e : Engine) (parents : List Document)
    (hread : readJson source.text = .ok tree)
    (hdetect : detect e.dialect (.ofSource tree) = .ok directives) :
    (Draft.ofSource tree).EditedBy directives (e.finalState source parents tree directives).draft ∧
      (∀ x ∈ directives, (Draft.ofSource tree).entries x.cell = []) ∧
        (e.finalState source parents tree directives).draft.IsTree
          (Draft.ofSource tree).cells.size := by
  have htrail := e.trail_history source parents tree directives
  have hstart := isSound_start hread hdetect
  have hsettled := htrail.settled_perm
  rw [List.append_nil] at hsettled
  refine ⟨(htrail.editedBy hstart).mono hsettled.subset, ?_, (htrail.isSound hstart).1.tree⟩
  exact fun x hx => (hstart.fits x hx).entries_eq_nil

/-- Directives change their own places only, and fail as their kind demands. On the way from a text
to its document, every event either puts its directive off and changes nothing, or writes an outcome
and rewrites the document as that demands, where the string of the directive stands. So in the
finished document every other value of the text is still there with its kind and its text, the cells
of the text that are left are in their old order, and a text without directives is finished as the
value that it spells. -/
theorem directives_change_their_places (hv : e.dialect.vocabulary.Keeps .addressed)
    (hparents : ∀ p ∈ parents, p.IsCompiled) (hread : readJson source.text = .ok tree)
    (hdetect : detect e.dialect (.ofSource tree) = .ok directives) :
    let w := e.workshop source parents
    let start := Draft.ofSource tree
    let final := e.finalState source parents tree directives
    let spelled := tree.outline.placed (.root source.id)
    Trail w ⟨start, []⟩ directives (e.history source parents tree directives) final [] ∧
      (∀ a ∈ e.history source parents tree directives,
        match a.outcome? w with
        | none => a.settles = false ∧ a.after w = a.before ∧ a.fault? w = none
        | some outcome => ∃ keys, a.Rewrites w outcome keys) ∧
      e.compileWithParents source parents =
        ⟨[.ofParents ⟨source.id, final.draft.freeze source.id⟩ parents],
          final.faults.map (.ofFault source.id)⟩ ∧
      (∀ keys id, start.Leads start.root keys id → (∀ x ∈ directives, x.cell ≠ id) →
        ∃ keys' m m', AlikeKeys keys keys' ∧ final.draft.Leads final.draft.root keys' id ∧
          spelled.at? keys = some m ∧ (final.draft.freeze source.id).at? keys' = some m' ∧
            m.IsStill m') ∧
      (final.draft.order.filter (· < start.cells.size)).Sublist start.order ∧
      (directives = [] →
        e.compileWithParents source parents = ⟨[.ofParents ⟨source.id, spelled⟩ parents], []⟩) ∧
      (tree.IsLiteral → directives = []) := by
  intro w start final spelled
  have htrail := e.trail_history source parents tree directives
  have htree := Draft.isTree_ofSource (readJson_namesDiffer hread)
  have hspelled : start.freeze source.id = spelled :=
    Draft.freeze_ofSource (readJson_namesDiffer hread) source.id
  have hcompiled := e.compileWithParents_eq parents hread hdetect
  obtain ⟨hedit, hbare, hfinal⟩ := e.editedBy_finalState parents hread hdetect
  refine ⟨htrail, fun a ha => ?_, hcompiled, fun keys id hleads hne => ?_, ?_, ?_, ?_⟩
  · rcases houtcome : a.outcome? w with _ | outcome
    · exact Event.unchanged_of_outcome? houtcome
        (htrail.fate_ne_skipped (isSound_start hread hdetect) a ha)
    · exact exists_rewrites_of_mem_history hv hparents hread hdetect ha houtcome
  · rw [← hspelled]
    exact hedit.isStill htree hfinal hbare hleads hne source.id
  · exact hedit.order_sublist htree hfinal hbare
  · rintro rfl
    rw [hcompiled, ← hspelled]
    rfl
  · intro hliteral
    rw [detect_ofSource_of_isLiteral hliteral] at hdetect
    exact (Except.ok.inj hdetect).symm

/-- A text in which items are merged between others. -/
def mergingText : SourceText :=
  ⟨"D", "\x7b\"A\":[\"x\",\"$merge(B)\",\"y\"],\"B\":[\"z\"],\"C\":\"$value(E)\"\x7d"⟩

theorem directives_change_their_places_merged :
    let e := Engine.standard (.midnight ⟨2024, 1, 1⟩)
    ∃ tree directives, readJson mergingText.text = .ok tree ∧
      detect e.dialect (.ofSource tree) = .ok directives ∧ directives.length = 2 ∧
        (∃ keys m, AlikeKeys [.member "A", .item 2] keys ∧
          ((e.finalState mergingText [] tree directives).draft.freeze "D").at? keys = some m ∧
            m.scalar? = some (.quoted "y")) ∧
        ∀ a ∈ e.history mergingText [] tree directives, a.settles →
          ∃ outcome keys, a.Rewrites (e.workshop mergingText []) outcome keys := by
  intro e
  -- the cell of the last item of `A`, which is that of no directive
  have hfound : ((readJson mergingText.text).toOption.bind fun tree =>
      (detect .standard (.ofSource tree)).toOption.bind fun directives =>
        ((Draft.ofSource tree).walk.find? fun p => p.2 == [.member "A", .item 2]).filter fun p =>
          directives.length == 2 && directives.all (fun x => x.cell != p.1) &&
            ((tree.outline.placed (.root "D")).at? p.2).bind Node.scalar? ==
              some (.quoted "y")).isSome := by
    decide +kernel
  obtain ⟨⟨id, keys⟩, hfound⟩ := Option.isSome_iff_exists.1 hfound
  obtain ⟨tree, hread, hfound⟩ := Option.bind_eq_some_iff.1 hfound
  obtain ⟨directives, hdetect, hfound⟩ := Option.bind_eq_some_iff.1 hfound
  obtain ⟨hcell, hchecked⟩ := Option.filter_eq_some_iff.1 hfound
  have hkeys := List.find?_some hcell
  obtain rfl : keys = [.member "A", .item 2] := beq_iff_eq.1 hkeys
  simp only [Bool.and_eq_true, beq_iff_eq, List.all_eq_true, bne_iff_ne] at hchecked
  obtain ⟨⟨hlength, hne⟩, hscalar⟩ := hchecked
  have hread := Except.toOption_eq_some_iff.1 hread
  have hdetect := Except.toOption_eq_some_iff.1 hdetect
  have hv : e.dialect.vocabulary.Keeps .addressed := Vocabulary.standard_keeps _
  have hparents : ∀ p ∈ ([] : List Document), p.IsCompiled := nofun
  obtain ⟨-, hevents, -, hstill, -⟩ :=
    directives_change_their_places hv hparents hread hdetect
  have htree := Draft.isTree_ofSource (readJson_namesDiffer hread)
  have hleads := htree.mem_walk_iff.1 (List.mem_of_find?_eq_some hcell)
  obtain ⟨keys', m, m', halike, -, hat, hat', hm⟩ := hstill _ id hleads hne
  refine ⟨tree, directives, hread, hdetect, hlength, ⟨keys', m', halike, hat', ?_⟩, ?_⟩
  · have hspelled : (tree.outline.placed (.root "D")).at? [.member "A", .item 2] = some m := hat
    rw [hspelled] at hscalar
    exact hm.scalar?_eq.trans hscalar
  · intro a ha hsettles
    have hevent := hevents a ha
    split at hevent
    · rw [hevent.1] at hsettles
      cases hsettles
    · exact ⟨_, hevent⟩

end Engine

end DocQuery
