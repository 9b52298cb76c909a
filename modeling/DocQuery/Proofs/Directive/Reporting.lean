/-
Where the faults of the strings of a text are reported.

* `Embeds` — the expressions in a string, and how many of its characters stand before each;
* `Cell.Counts` — the places that are counted to in the string of a cell;
* `directiveOf_stays` — what is found in a string stands in such places, or its faults do;
* `Draft.write_stays` — so do the faults of what is written into its place;
* `Engine.ReportsFor` — a report of a text, for what is wrong with one of its values;
* `Engine.reports_stand_in_strings` — it is made for a place that is counted to in a string, which
  lies in the writing of the string exactly if no line feed is counted.

Design notes: where an expression begins is looked up in the columns of its string, which know how
every character is written. From there on the characters of the expression are counted as they read,
so that an escape counts as one character, and an escaped line feed as the end of a line. Nothing
that is written into a draft moves its cells, so a directive fails where it was found.
-/
import DocQuery.Proofs.Directive.Malformation
import DocQuery.Proofs.Directive.Soundness
import DocQuery.Proofs.Draft.Literals
import DocQuery.Proofs.Formula.Wording

namespace DocQuery

open Workshop (State)

/-! ### Expressions in strings -/

/-- Whether `content` is an expression of the string `cs` in a slot, behind some of its characters:
the member `$copyFields` is one as a whole, a call has one between its parentheses, and any other
string has those of its parts. -/
inductive Embeds (slot : Option Slot) (cs : List Char) : Nat → List Char → Prop
  | whole : slot.any Slot.isCopyFields → Embeds slot cs 0 cs
  | call {marker body : List Char} : ¬ slot.any Slot.isCopyFields →
    marker ∈ [valueMarker, mergeMarker] → IsEnclosed body → cs = marker ++ body ++ [')'] →
      Embeds slot cs marker.length body
  | part {fragments : List Fragment} {content : List Char} {offset : Nat} :
    ¬ slot.any Slot.isCopyFields → ¬ IsCall cs → SplitsInto 0 cs (.ok fragments) →
      .expression content offset ∈ fragments → Embeds slot cs offset content

/-- Whether a place is the opening quote of the string `cs` in a cell, or one of its characters, or
is counted to from the beginning of an expression of it, over the characters `passed`. -/
inductive Cell.Counts (c : Cell) (slot : Option Slot) (cs : List Char) :
    List Char → Position → Prop
  | quote : Counts c slot cs [] c.position
  | mark {k : Nat} : k < cs.length → Counts c slot cs [] (c.textPosition k)
  | expression {k : Nat} {content passed : List Char} : Embeds slot cs k content →
    passed <+: content → Counts c slot cs passed ((c.textPosition k).after passed)

/-- Whether a place is counted to in the string `cs` of a cell. -/
abbrev Cell.Reaches (c : Cell) (slot : Option Slot) (cs : List Char) (p : Position) : Prop :=
  ∃ passed, c.Counts slot cs passed p

section Strings

variable {c : Cell} {slot : Option Slot} {cs content passed : List Char} {k : Nat} {p : Position}

theorem Embeds.exists_append (h : Embeds slot cs k content) :
    ∃ before behind, cs = before ++ (content ++ behind) ∧ before.length = k := by
  cases h with
  | whole => exact ⟨[], [], by simp, rfl⟩
  | call _ _ _ hcs => exact ⟨_, [')'], by rw [hcs, List.append_assoc], rfl⟩
  | part _ _ hsplits hmem =>
    obtain ⟨hparts, hwritten⟩ := hsplits.areParts
    obtain ⟨before, after, rfl⟩ := List.append_of_mem hmem
    refine ⟨writeFragments before ++ ['$', '('], ')' :: writeFragments after, ?_, ?_⟩
    · rw [← hwritten]
      simp [Fragment.written]
    · rw [hparts.offset_eq before _ _ after rfl, Nat.zero_add]

/-- What stands within an expression is counted to in its string. -/
theorem Embeds.reaches (h : Embeds slot cs k content)
    (hp : (c.textPosition k).IsWithin content p) : c.Reaches slot cs p := by
  obtain ⟨passed, hpassed, rfl⟩ := hp
  exact ⟨passed, .expression h hpassed⟩

/-- A place that is counted to lies in the writing of its string exactly if no line feed is
counted. -/
theorem Cell.Counts.liesIn_iff {text string : String} {before : List Char}
    {writings : List (List Char)} (h : c.Counts slot string.toList passed p)
    (hwritten : c.IsWrittenIn text string before writings) :
    p.LiesIn before writings ↔ '\n' ∉ passed := by
  cases h with
  | quote => exact iff_of_true hwritten.liesIn_quote List.not_mem_nil
  | mark hk => exact hwritten.liesIn_after_iff (String.length_toList ▸ hk.le) List.nil_prefix
  | expression hembeds hpassed =>
    obtain ⟨earlier, behind, hstring, rfl⟩ := hembeds.exists_append
    refine hwritten.liesIn_after_iff ?_ ?_
    · rw [← String.length_toList, hstring, List.length_append]
      exact Nat.le_add_right _ _
    · rw [hstring, List.drop_left]
      exact hpassed.trans (List.prefix_append _ _)

end Strings

/-! ### Finding directives -/

/-- Whether a result has the property `R`, or faults are in places of `S`. -/
structure Gathered.Stays {α : Type} (S : Position → Prop) (R : α → Prop)
    (x : Except (List Fault) α) : Prop where
  result : ∀ a, x = .ok a → R a
  faults : ∀ faults, x = .error faults → ∀ fault ∈ faults, ∀ p, fault.position? = some p → S p

namespace Gathered

variable {α β γ : Type} {S : Position → Prop} {R : α → Prop} {T : β → Prop} {U : γ → Prop}
  {p : Position}

theorem stays_ok {a : α} (h : R a) : Stays S R (.ok a) :=
  ⟨fun _ ha => Except.ok.inj ha ▸ h, nofun⟩

theorem stays_malformed (problem : SyntaxProblem) (h : S p) :
    Stays S R (.error [.malformed problem p]) := by
  refine ⟨nofun, fun faults hfaults fault hfault q hq => ?_⟩
  obtain rfl := Except.error.inj hfaults
  obtain rfl := List.mem_singleton.1 hfault
  exact Option.some.inj hq ▸ h

/-- The one fault of a computation as a list. -/
theorem stays_mapError {x : Except Fault α} (h : Outcome.Stays S R x) :
    Stays S R (x.mapError fun fault => [fault]) := by
  rcases x with fault | a
  · refine ⟨nofun, fun faults hfaults found hfound p hp => ?_⟩
    obtain rfl := Except.error.inj hfaults
    obtain rfl := List.mem_singleton.1 hfound
    exact h.fault _ p rfl hp
  · exact stays_ok (h.result a rfl)

theorem Stays.map {x : Except (List Fault) α} {f : α → β} (hx : Stays S R x)
    (hf : ∀ a, R a → T (f a)) : Stays S T (x.map f) := by
  rcases x with faults | a
  · refine ⟨nofun, fun faults' h => ?_⟩
    obtain rfl := Except.error.inj h
    exact hx.faults faults rfl
  · exact stays_ok (hf a (hx.result a rfl))

/-- The faults of two results are those of the one or of the other. -/
theorem exists_of_gather_eq_error {a : Except (List Fault) α} {b : Except (List Fault) β}
    {f : α → β → γ} {faults : List Fault} (h : gather f a b = .error faults) {fault : Fault}
    (hfault : fault ∈ faults) :
    (∃ own, a = .error own ∧ fault ∈ own) ∨ ∃ own, b = .error own ∧ fault ∈ own := by
  rcases a with as | u
  · rcases b with bs | v
    · obtain rfl := Except.error.inj h
      exact (List.mem_append.1 hfault).imp (⟨as, rfl, ·⟩) (⟨bs, rfl, ·⟩)
    · obtain rfl := Except.error.inj h
      exact .inl ⟨as, rfl, hfault⟩
  · rcases b with bs | v
    · obtain rfl := Except.error.inj h
      exact .inr ⟨bs, rfl, hfault⟩
    · cases h

theorem gather_stays {a : Except (List Fault) α} {b : Except (List Fault) β} {f : α → β → γ}
    (ha : Stays S R a) (hb : Stays S T b) (hf : ∀ u v, R u → T v → U (f u v)) :
    Stays S U (gather f a b) := by
  constructor
  · intro c hc
    obtain ⟨u, v, hu, hv, rfl⟩ := gather_eq_ok_iff.1 hc
    exact hf u v (ha.result u hu) (hb.result v hv)
  · intro faults h fault hfault
    obtain ⟨own, hown, hmem⟩ | ⟨own, hown, hmem⟩ := exists_of_gather_eq_error h hfault
    · exact ha.faults own hown fault hmem
    · exact hb.faults own hown fault hmem

end Gathered

/-- Whether the formulas of an action stand in places of `S`. -/
def Action.StandsIn (S : Position → Prop) (a : Action) : Prop := ∀ f, a.Has f → f.StandsIn S

/-- An action begins where its first formula stands. -/
theorem Action.StandsIn.position {S : Position → Prop} {a : Action} (h : a.StandsIn S)
    {p : Position} (hp : a.position? = some p) : S p := by
  cases a with
  | copyFields f => exact Option.some.inj hp ▸ (h f (.copyFields f)).position
  | merge f => exact Option.some.inj hp ▸ (h f (.merge f)).position
  | value f => exact Option.some.inj hp ▸ (h f (.value f)).position
  | interpolate parts =>
    obtain ⟨part, hpart, hposition⟩ := List.exists_of_findSome?_eq_some hp
    cases part with
    | text content => cases hposition
    | formula f => exact Option.some.inj hposition ▸ (h f (.part hpart)).position

section Detection

variable {c : Cell} {slot : Option Slot} {cs content : List Char} {k : Nat} (d : Dialect)

theorem compileIn_stays (h : Embeds slot cs k content) :
    Gathered.Stays (c.Reaches slot cs) (Formula.StandsIn (c.Reaches slot cs))
      (compileIn d content (c.textPosition k)) := by
  refine Gathered.stays_mapError (compileExpression_stays (fun p hp => ?_) d)
  rw [String.toList_ofList] at hp
  exact h.reaches hp

/-- What is to become of a string with one formula stands where the formula does. -/
theorem compileIn_map_stays (h : Embeds slot cs k content) {make : Formula → Action}
    (hmake : ∀ f g, (make f).Has g → g = f) :
    Gathered.Stays (c.Reaches slot cs) (fun found => ∀ a ∈ found, a.StandsIn (c.Reaches slot cs))
      ((compileIn d content (c.textPosition k)).map fun f => some (make f)) := by
  refine (compileIn_stays d h).map fun f hf a ha g hg => ?_
  obtain rfl := Option.some.inj ha
  exact hmake f g hg ▸ hf

theorem compileFragments_stays {fragments : List Fragment}
    (h : ∀ content offset, .expression content offset ∈ fragments →
      Embeds slot cs offset content) :
    Gathered.Stays (c.Reaches slot cs)
      (fun parts => (Action.interpolate parts).StandsIn (c.Reaches slot cs))
      (compileFragments d c fragments) := by
  induction fragments with
  | nil =>
    refine Gathered.stays_ok fun f hf => ?_
    cases hf with
    | part hf => cases hf
  | cons fragment fragments ih =>
    have hpart : Gathered.Stays (c.Reaches slot cs)
        (fun part => ∀ f, part = Part.formula f → f.StandsIn (c.Reaches slot cs))
        (fragment.compile d c) := by
      cases fragment with
      | text content => exact Gathered.stays_ok nofun
      | expression content offset =>
        refine (compileIn_stays d (h content offset List.mem_cons_self)).map fun f hf g hg => ?_
        exact Part.formula.inj hg ▸ hf
    have hrest := ih fun content offset hmem => h content offset (List.mem_cons_of_mem _ hmem)
    refine Gathered.gather_stays hpart hrest fun part parts hpart hparts f hf => ?_
    cases hf with
    | part hf =>
      rcases List.mem_cons.1 hf with heq | hf
      · exact hpart f heq.symm
      · exact hparts f (.part hf)

theorem interpolationIn_stays (hslot : ¬ slot.any Slot.isCopyFields) (hcall : ¬ IsCall cs) :
    Gathered.Stays (c.Reaches slot cs) (fun found => ∀ a ∈ found, a.StandsIn (c.Reaches slot cs))
      (interpolationIn d c cs) := by
  rw [interpolationIn]
  split
  · split
    · rename_i offset hsplit
      obtain ⟨fragments, rest, -, hcs, hoffset, -⟩ := (splitInterpolation_eq_iff.1 hsplit).areParts
      refine Gathered.stays_malformed _ ⟨[], .mark ?_⟩
      rw [hoffset, hcs, List.length_append, List.length_cons]
      omega
    · rename_i fragments hsplit
      have hsplits := splitInterpolation_eq_iff.1 hsplit
      have hembeds : ∀ content offset, .expression content offset ∈ fragments →
          Embeds slot cs offset content := fun content offset => .part hslot hcall hsplits
      refine (compileFragments_stays d hembeds).map fun parts hparts a ha => ?_
      exact Option.some.inj ha ▸ hparts
  · exact Gathered.stays_ok fun a ha => absurd ha (Option.not_mem_none a)

theorem stringAction_stays (hslot : ¬ slot.any Slot.isCopyFields) (cs : List Char) :
    Gathered.Stays (c.Reaches slot cs) (fun found => ∀ a ∈ found, a.StandsIn (c.Reaches slot cs))
      (stringAction d c slot cs) := by
  by_cases hcall : IsCall cs
  · obtain ⟨marker, hmarker, ⟨rest, rfl, hrest⟩ | ⟨body, rfl, hbody⟩⟩ := hcall
    · -- the parenthesis of the marker is reported, which is a character of the string
      rw [stringAction_of_unclosed hmarker hrest]
      obtain ⟨start, rfl⟩ := exists_of_mem_markers hmarker
      refine Gathered.stays_malformed _ ⟨[], .mark ?_⟩
      simp only [List.length_append, List.length_singleton]
      omega
    · have hembeds := Embeds.call hslot hmarker hbody rfl
      rcases List.mem_pair.1 hmarker with rfl | rfl
      · rw [stringAction_of_value hbody]
        exact compileIn_map_stays d hembeds fun f g hg => by cases hg; rfl
      · by_cases hitem : ∃ array index, slot = some (.item array index)
        · obtain ⟨array, index, rfl⟩ := hitem
          rw [stringAction_of_merge hbody]
          exact compileIn_map_stays d hembeds fun f g hg => by cases hg; rfl
        · rw [stringAction_of_mergeOutside hbody fun array index h => hitem ⟨array, index, h⟩]
          exact Gathered.stays_malformed _ ⟨[], .quote⟩
  · rw [stringAction_of_not_isCall hcall]
    exact interpolationIn_stays d hslot hcall

theorem cellAction_stays (slot : Option Slot) {text : String}
    (hcontent : c.content = .scalar ⟨text, true⟩) :
    Gathered.Stays (c.Reaches slot text.toList)
      (fun found => ∀ a ∈ found, a.StandsIn (c.Reaches slot text.toList))
      (cellAction d c slot) := by
  rw [cellAction]
  split
  · rename_i hslot
    rw [copyFieldsAction, hcontent]
    exact compileIn_map_stays d (.whole hslot) fun f g hg => by cases hg; rfl
  · rename_i hslot
    rw [hcontent]
    exact stringAction_stays d hslot _

/-- What is found in a string stands where it is counted to in the string, or its faults do. -/
theorem directiveOf_stays {draft : Draft} {id : Nat} (hc : draft.cells[id]? = some c)
    {text : String} (hcontent : c.content = .scalar ⟨text, true⟩) :
    Gathered.Stays (c.Reaches (draft.slot? id) text.toList)
      (fun found => ∀ x ∈ found, x.action.StandsIn (c.Reaches (draft.slot? id) text.toList))
      (directiveOf d draft id) := by
  rw [directiveOf, hc]
  refine (cellAction_stays d _ hcontent).map fun found hfound x hx => ?_
  obtain ⟨a, ha, rfl⟩ := Option.map_eq_some_iff.1 hx
  exact hfound a ha

/-- What has a directive or faults is a cell of the draft. -/
theorem exists_cell_of_directiveOf {draft : Draft} {id : Nat}
    (h : directiveOf d draft id ≠ .ok none) : ∃ c, draft.cells[id]? = some c := by
  cases hc : draft.cells[id]? with
  | none =>
    rw [directiveOf, hc] at h
    exact absurd rfl h
  | some c => exact ⟨c, rfl⟩

/-- What is no string has at most one fault: it should say which members to copy. -/
theorem directiveOf_eq_error {draft : Draft} {id : Nat} (hc : draft.cells[id]? = some c)
    (hcontent : ∀ text, c.content ≠ .scalar ⟨text, true⟩) {faults : List Fault}
    (h : directiveOf d draft id = .error faults) :
    faults = [.malformed .copyFieldsNotText c.position] := by
  rw [directiveOf, hc] at h
  have haction := Except.map_eq_error_iff.1 h
  rw [cellAction] at haction
  split at haction
  · rw [copyFieldsAction] at haction
    split at haction
    · rename_i text htext
      exact absurd htext (hcontent text)
    · exact (Except.error.inj haction).symm
  · split at haction
    · rename_i text htext
      exact absurd htext (hcontent text)
    · cases haction

theorem directivesOf_eq_error {draft : Draft} {ids : List Nat} {faults : List Fault}
    (h : directivesOf d draft ids = .error faults) {fault : Fault} (hfault : fault ∈ faults) :
    ∃ id ∈ ids, ∃ own, directiveOf d draft id = .error own ∧ fault ∈ own := by
  induction ids generalizing faults with
  | nil => cases h
  | cons id ids ih =>
    obtain ⟨own, hown, hmem⟩ | ⟨more, hmore, hmem⟩ := Gathered.exists_of_gather_eq_error h hfault
    · exact ⟨id, List.mem_cons_self, own, hown, hmem⟩
    · obtain ⟨other, hother, hown⟩ := ih hmore hmem
      exact ⟨other, List.mem_cons_of_mem _ hother, hown⟩

/-- The faults for which a draft is refused are those of its cells. -/
theorem detect_eq_error {draft : Draft} {faults : List Fault} (h : detect d draft = .error faults)
    {fault : Fault} (hfault : fault ∈ faults) :
    ∃ id ∈ draft.order, ∃ own, directiveOf d draft id = .error own ∧ fault ∈ own := by
  exact directivesOf_eq_error d (Except.map_eq_error_iff.1 h) hfault

end Detection

/-! ### Carrying them out -/

section Work

open Outcome Correspondence

variable {S : Position → Prop} {w : Workshop} {c : Context} {d : Draft} {a : Action}
  {outcome : Except Fault Value}

theorem Value.display_stays {p : Position} (hp : S p) (v : Value) :
    Stays S (fun _ => True) (v.display p) := by
  have h : (relocated fun p _ => S p).Outcomes Eq (v.display p) (v.display p) :=
    Correspondence.display (relocated_values v) hp
  exact (stays_of_outcomes h).mono (fun _ => id) fun _ _ => trivial

theorem joinParts_stays {parts : List Part} (h : (Action.interpolate parts).StandsIn S) :
    Stays S (fun _ => True) (joinParts c parts).outcome := by
  induction parts with
  | nil => exact stays_ok trivial
  | cons part parts ih =>
    have hrest : Stays S (fun _ => True) (joinParts c parts).outcome := by
      refine ih fun f hf => h f ?_
      cases hf with
      | part hf => exact .part (List.mem_cons_of_mem _ hf)
    cases part with
    | text content =>
      rw [joinParts, Traced.outcome_bind]
      exact hrest.bind fun _ _ => stays_ok trivial
    | formula f =>
      have hf : f.StandsIn S := h f (.part List.mem_cons_self)
      simp only [joinParts, Traced.outcome_bind]
      refine (hf.evaluate_stays c).bind fun v _ => ?_
      refine (v.display_stays hf.position).bind fun s _ => ?_
      exact hrest.bind fun _ _ => stays_ok trivial

/-- An action fails only where a part of one of its formulas stands. -/
theorem Action.StandsIn.compute_stays (h : a.StandsIn S) (c : Context) :
    Stays S (fun _ => True) (a.compute c).outcome := by
  cases a with
  | copyFields f => exact (h f (.copyFields f)).evaluate_stays c
  | merge f => exact (h f (.merge f)).evaluate_stays c
  | value f => exact (h f (.value f)).evaluate_stays c
  | interpolate parts =>
    simp only [compute, Traced.outcome_bind]
    exact (joinParts_stays h).bind fun _ _ => stays_ok trivial

theorem Value.offeredMembers_stays {p : Position} (hp : S p) (v : Value) :
    Stays S (fun _ => True) (v.offeredMembers p) := by
  have hsources : Stays S (fun _ => True) (v.sources p) := by
    unfold sources
    simp only
    split
    · exact stays_failed _ hp
    · split
      · exact stays_ok trivial
      · exact stays_failed _ hp
  exact hsources.map fun _ _ => trivial

/-- What is written of a directive fails where its cell begins, or where a part of one of its
formulas stands. -/
theorem Draft.write_stays {x : Directive} (hx : x.action.StandsIn S)
    (hcell : S (d.positionOf x.cell)) (houtcome : Stays S (fun _ => True) outcome) {fault : Fault}
    (h : (d.write w x outcome).2 = some fault) {p : Position} (hp : fault.position? = some p) :
    S p := by
  obtain ⟨cell, action⟩ := x
  cases action with
  | copyFields f =>
    simp only [write, writeMembers] at h
    split at h
    · have hoffered := houtcome.bind fun v _ => v.offeredMembers_stays hcell
      split at h
      · rename_i found hfound
        obtain rfl := Option.some.inj h
        exact hoffered.fault _ p hfound hp
      · cases h
    · -- a broken invariant has no place
      obtain rfl := Option.some.inj h
      cases hp
  | merge f =>
    simp only [write, writeItems] at h
    split at h
    · obtain rfl := Option.some.inj h
      exact houtcome.fault _ p rfl hp
    · split at h
      · cases h
      · rename_i found hsplice
        obtain rfl := Option.some.inj h
        rw [splice] at hsplice
        split at hsplice
        · cases hsplice
        · obtain rfl := Except.error.inj hsplice
          cases hp
  | value f =>
    simp only [write, writeValue] at h
    split at h
    · obtain rfl := Option.some.inj h
      exact houtcome.fault _ p rfl hp
    · split at h
      · cases h
      · split at h
        · split at h
          · cases h
          · cases h
        · obtain rfl := Option.some.inj h
          exact Option.some.inj hp ▸ (hx f (.value f)).position
  | interpolate parts =>
    simp only [write, writeText] at h
    split at h
    · obtain rfl := Option.some.inj h
      exact houtcome.fault _ p rfl hp
    · cases h

/-- A directive that waits for itself fails where it begins. -/
theorem Workshop.circularity_stays {x : Directive} (hx : x.action.StandsIn S)
    (hcell : S (d.positionOf x.cell)) :
    Stays S (fun _ => True) (.error (circularity d x) : Except Fault Value) := by
  refine stays_failed _ ?_
  cases hp : x.action.position? with
  | none => exact hcell
  | some p => exact hx.position hp

theorem Event.fault_stays {e : Event} (hx : e.directive.action.StandsIn S)
    (hcell : S (e.before.draft.positionOf e.directive.cell)) {fault : Fault}
    (h : e.fault? w = some fault) {p : Position} (hp : fault.position? = some p) : S p := by
  obtain ⟨x, others, s, fate⟩ := e
  cases fate with
  | written => exact Draft.write_stays hx hcell (hx.compute_stays _) h hp
  | circular => exact Draft.write_stays hx hcell (Workshop.circularity_stays hx hcell) h hp
  | deferred | skipped => cases h

theorem Event.keepsPlaces (e : Event) : e.before.draft.KeepsPlaces (e.after w).draft := by
  obtain ⟨x, others, s, fate⟩ := e
  cases fate with
  | written | circular => exact Draft.keepsPlaces_write _ _ _ _
  | deferred | skipped => exact .refl _

/-- The work leaves all cells where they were. -/
theorem Trail.keepsPlaces {s t : State} {ds es : List Directive} {events : List Event}
    (h : Trail w s ds events t es) : s.draft.KeepsPlaces t.draft := by
  induction h with
  | done => exact .refl _
  | @step e events t ds es _ _ _ ih => exact e.keepsPlaces.trans ih

end Work

/-! ### Reports -/

theorem Fault.IsOrdinary.exists_position {fault : Fault} (h : fault.IsOrdinary) :
    ∃ p, fault.position? = some p := by
  cases fault with
  | malformed problem p => exact ⟨p, rfl⟩
  | failed problem p => exact ⟨p, rfl⟩
  | broken invariant => exact h.elim

namespace Engine

/-- Whether a text is reported for the value in the cell `id` of its draft: for what is malformed
there, or for what fails when it is the turn of its directive. -/
inductive ReportsFor (e : Engine) (source : SourceText) (parents : List Document) (tree : Source)
    (id : Nat) : Report → Prop
  | malformed {faults : List Fault} {fault : Fault} :
    directiveOf e.dialect (.ofSource tree) id = .error faults → fault ∈ faults →
      ReportsFor e source parents tree id (.ofFault source.id fault)
  | failed {directives : List Directive} {a : Event} {fault : Fault} :
    detect e.dialect (.ofSource tree) = .ok directives →
      a ∈ e.history source parents tree directives → a.directive.cell = id →
        a.fault? (e.workshop source parents) = some fault →
          ReportsFor e source parents tree id (.ofFault source.id fault)

variable {e : Engine} {source : SourceText} {parents : List Document} {tree : Source} {r : Report}

/-- All reports of a text that is read are for the values of it. -/
theorem exists_reportsFor (hread : readJson source.text = .ok tree)
    (hr : r ∈ (e.compileWithParents source parents).reports) :
    ∃ id ∈ (Draft.ofSource tree).order, e.ReportsFor source parents tree id r := by
  cases hdetect : detect e.dialect (.ofSource tree) with
  | error faults =>
    rw [e.compileWithParents_of_faults parents hread hdetect] at hr
    obtain ⟨fault, hfault, rfl⟩ := List.mem_map.1 hr
    obtain ⟨id, hid, own, hown, hmem⟩ := detect_eq_error _ hdetect hfault
    exact ⟨id, hid, .malformed hown hmem⟩
  | ok directives =>
    rw [e.compileWithParents_eq parents hread hdetect] at hr
    obtain ⟨fault, hfault, rfl⟩ := List.mem_map.1 hr
    rw [(e.trail_history source parents tree directives).faults_eq, List.nil_append] at hfault
    obtain ⟨a, ha, hfault⟩ := List.mem_filterMap.1 hfault
    exact ⟨_, (directiveOf_of_mem_history hdetect ha).1, .failed hdetect ha rfl hfault⟩

namespace ReportsFor

variable {id : Nat} {c : Cell}

/-- What is reported is a value of the text. -/
theorem exists_cell (h : e.ReportsFor source parents tree id r) :
    ∃ c, (Draft.ofSource tree).cells[id]? = some c := by
  refine exists_cell_of_directiveOf e.dialect ?_
  cases h with
  | malformed hfaults _ =>
    rw [hfaults]
    nofun
  | failed hdetect ha hcell _ =>
    subst hcell
    rw [(directiveOf_of_mem_history hdetect ha).2]
    nofun

/-- Every report for a value has a place. -/
theorem exists_position (hread : readJson source.text = .ok tree)
    (h : e.ReportsFor source parents tree id r) : ∃ p, r.position = some p := by
  cases h with
  | malformed hfaults hfault =>
    have hsound : Gathered.IsSound (directivesOf e.dialect (.ofSource tree) [id]) :=
      directivesOf_isSound _ _ _
    rw [directivesOf, hfaults] at hsound
    exact (hsound _ rfl _ hfault).exists_position
  | failed hdetect ha _ hfault =>
    obtain ⟨hcomputed, hsits⟩ := history_isSound hread hdetect ha
    exact (Event.fault?_isOrdinary hsits hcomputed hfault).exists_position

/-- A string is reported for a place that is counted to in it. -/
theorem reaches (h : e.ReportsFor source parents tree id r)
    (hc : (Draft.ofSource tree).cells[id]? = some c) {text : String}
    (hcontent : c.content = .scalar ⟨text, true⟩) {p : Position} (hp : r.position = some p) :
    c.Reaches ((Draft.ofSource tree).slot? id) text.toList p := by
  have hfound := directiveOf_stays e.dialect hc hcontent
  cases h with
  | malformed hfaults hfault => exact hfound.faults _ hfaults _ hfault p hp
  | @failed directives a fault hdetect ha hcell hfault =>
    subst hcell
    obtain ⟨-, hdirective⟩ := directiveOf_of_mem_history hdetect ha
    have hstands := hfound.result _ hdirective a.directive rfl
    -- what has been written before has not moved the cell
    obtain ⟨earlier, later, -, hearlier, -⟩ :=
      (e.trail_history source parents tree directives).exists_between ha
    have hplace := hearlier.keepsPlaces.positionOf_eq _ (Array.getElem?_eq_some_iff.1 hc).1
    have hcell : (Draft.ofSource tree).positionOf a.directive.cell = c.position := by
      rw [Draft.positionOf, hc]
      rfl
    refine Event.fault_stays hstands ?_ hfault hp
    rw [hplace, hcell]
    exact ⟨[], .quote⟩

/-- What is no string is reported for where it begins, and only if it should say which members to
copy. -/
theorem of_no_string (h : e.ReportsFor source parents tree id r)
    (hc : (Draft.ofSource tree).cells[id]? = some c)
    (hcontent : ∀ text, c.content ≠ .scalar ⟨text, true⟩) :
    r = .ofFault source.id (.malformed .copyFieldsNotText c.position) := by
  cases h with
  | malformed hfaults hfault =>
    rw [directiveOf_eq_error _ hc hcontent hfaults] at hfault
    rw [List.mem_singleton.1 hfault]
  | failed hdetect ha hcell hfault =>
    subst hcell
    obtain ⟨-, text, htext⟩ := directiveOf_eq_ok (directiveOf_of_mem_history hdetect ha).2
    rw [Draft.content?, hc] at htext
    exact absurd (Option.some.inj htext) (hcontent text)

end ReportsFor

/-- Every report of a text that is read is for one of its values. If this is a string, the report
is made for its opening quote, for one of its characters, or for a place that is counted to from the
beginning of an expression in it: from where the first character of the expression is written, over
characters of the expression as they read. The place lies in the writing of the string, from the
opening to the closing quote, exactly if none of these characters is a line feed. Otherwise the
value should be a string that says which members to copy, and the report is made for where it
begins. -/
theorem reports_stand_in_strings (hread : readJson source.text = .ok tree)
    (hr : r ∈ (e.compileWithParents source parents).reports) :
    ∃ id ∈ (Draft.ofSource tree).order, ∃ c, (Draft.ofSource tree).cells[id]? = some c ∧
      e.ReportsFor source parents tree id r ∧
        ((∃ content before writings p passed, c.content = .scalar ⟨content, true⟩ ∧
            c.IsWrittenIn source.text content before writings ∧ r.position = some p ∧
              c.Counts ((Draft.ofSource tree).slot? id) content.toList passed p ∧
                (p.LiesIn before writings ↔ '\n' ∉ passed)) ∨
          ((∀ content, c.content ≠ .scalar ⟨content, true⟩) ∧
            r = .ofFault source.id (.malformed .copyFieldsNotText c.position))) := by
  obtain ⟨id, hid, hfor⟩ := exists_reportsFor hread hr
  obtain ⟨c, hc⟩ := hfor.exists_cell
  refine ⟨id, hid, c, hc, hfor, ?_⟩
  by_cases hcontent : ∃ content, c.content = .scalar ⟨content, true⟩
  · obtain ⟨content, hcontent⟩ := hcontent
    obtain ⟨before, writings, hwritten⟩ := Draft.exists_isWrittenIn hread hid hc hcontent
    obtain ⟨p, hp⟩ := hfor.exists_position hread
    obtain ⟨passed, hcounts⟩ := hfor.reaches hc hcontent hp
    exact .inl ⟨content, before, writings, p, passed, hcontent, hwritten, hp, hcounts,
      hcounts.liesIn_iff hwritten⟩
  · rw [not_exists] at hcontent
    exact .inr ⟨hcontent, hfor.of_no_string hc hcontent⟩

/-- An expression with escapes before it and in it. That in it has been counted as a character. -/
theorem reports_stand_in_strings_escaped :
    let source : SourceText := ⟨"D", "\x7b\"A\":\"\\t\\u0041 $(1 +\\u0020@)\"\x7d"⟩
    let e := Engine.standard (.midnight ⟨2024, 1, 1⟩)
    ∃ (tree : Source) (r : Report) (id : Nat) (c : Cell) (content : String) (before : List Char)
        (writings : List (List Char)) (p : Position) (passed : List Char),
      readJson source.text = .ok tree ∧ r ∈ (e.compileWithParents source []).reports ∧
        c.IsWrittenIn source.text content before writings ∧ r.position = some p ∧ p = ⟨1, 22⟩ ∧
          c.Counts ((Draft.ofSource tree).slot? id) content.toList passed p ∧
            (p.LiesIn before writings ↔ '\n' ∉ passed) := by
  intro source e
  have hsome : (readJson source.text).toOption.isSome := by decide +kernel
  have hreports : (e.compileWithParents source []).reports =
      [⟨"D", "unexpected character '@'", some ⟨1, 22⟩⟩] := by
    decide +kernel
  obtain ⟨tree, htree⟩ := Option.isSome_iff_exists.1 hsome
  have hread : readJson source.text = .ok tree := Except.toOption_eq_some_iff.1 htree
  have hr : ⟨"D", "unexpected character '@'", some ⟨1, 22⟩⟩ ∈
      (e.compileWithParents source []).reports := hreports ▸ List.mem_cons_self
  obtain ⟨id, -, c, -, -, hstands⟩ := reports_stand_in_strings hread hr
  obtain ⟨content, before, writings, p, passed, -, hwritten, hp, hcounts, hiff⟩ | ⟨-, hother⟩ :=
    hstands
  · exact ⟨tree, _, id, c, content, before, writings, p, passed, hread, hr, hwritten, hp,
      (Option.some.inj hp).symm, hcounts, hiff⟩
  · have hmessage : "unexpected character '@'" = "$copyFields expects an expression string" :=
      congrArg Report.message hother
    exact absurd hmessage (by decide)

/-- A line feed is written as an escape in an expression. What is reported behind it is reported for
a line that the text does not have, so for no place in any string of it. -/
theorem report_leaves_its_string :
    let text := "\x7b\"A\": \"$value(1 +\\n @)\"\x7d"
    let e := Engine.standard (.midnight ⟨2024, 1, 1⟩)
    ∃ p, (e.compileWithParents ⟨"D", text⟩ []).reports =
        [⟨"D", "unexpected character '@'", some p⟩] ∧
      ∀ before writings behind,
        text.toList = before ++ '"' :: (List.flatten writings ++ '"' :: behind) →
          ¬ p.LiesIn before writings := by
  intro text e
  have hreports : (e.compileWithParents ⟨"D", text⟩ []).reports =
      [⟨"D", "unexpected character '@'", some ⟨2, 2⟩⟩] := by
    decide +kernel
  have hline : '\n' ∉ text.toList := by decide +kernel
  refine ⟨⟨2, 2⟩, hreports, fun before writings behind htext hin => ?_⟩
  have hsplit : text.toList = (before ++ '"' :: writings.flatten) ++ '"' :: behind := by
    rw [htext, List.append_assoc, List.cons_append]
  have hclose : '\n' ∉ before ++ '"' :: writings.flatten := fun hmem =>
    hline (hsplit ▸ List.mem_append_left _ hmem)
  have hup := hin.2.line_le
  rw [Position.after_eq_shifted hclose] at hup
  exact Nat.not_succ_le_self 1 hup

end Engine

end DocQuery
