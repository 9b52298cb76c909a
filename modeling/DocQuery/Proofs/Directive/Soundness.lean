/-
The work on a document finds no invariant of the library broken.

* `detect_isSound` — what keeps a text from being worked on is a malformed string;
* `Action.compute_isSound`, `Draft.write_isSound` — an action and the writing of its result fail only
  with faults that are not those of the library;
* `Trail.sitsIn` — a directive sits where it can be carried out until its turn comes;
* `Event.fault?_isOrdinary` — so no event reports a fault of the library;
* `Engine.history_isSound` — the events of the work on a text are of this kind.

Design notes: where a directive can be carried out is settled when it is found. Other directives
leave it there with the same name, or as an item, since they change no place but their own.
-/
import DocQuery.Proofs.Directive.Invariant
import DocQuery.Proofs.Expr.Soundness
import DocQuery.Proofs.Formula.Soundness

namespace DocQuery

open Outcome
open Time (Moment)
open Workshop (State)

/-! ### Finding directives -/

/-- Whether a result is there, or only faults that are not those of the library. -/
def Gathered.IsSound {α : Type} (x : Except (List Fault) α) : Prop :=
  ∀ faults, x = .error faults → ∀ fault ∈ faults, fault.IsOrdinary

namespace Gathered

variable {α β γ : Type}

theorem isSound_ok (a : α) : IsSound (.ok a) := nofun

theorem isSound_malformed (problem : SyntaxProblem) (p : Position) :
    IsSound (.error [.malformed problem p] : Except (List Fault) α) := by
  intro faults h fault hfault
  obtain rfl := Except.error.inj h
  obtain rfl := List.mem_singleton.1 hfault
  trivial

theorem IsSound.map {x : Except (List Fault) α} (hx : IsSound x) (f : α → β) :
    IsSound (x.map f) := by
  rcases x with faults | a
  · intro faults' h
    obtain rfl := Except.error.inj h
    exact hx faults rfl
  · exact isSound_ok _

theorem gather_isSound {a : Except (List Fault) α} {b : Except (List Fault) β} (ha : IsSound a)
    (hb : IsSound b) (f : α → β → γ) : IsSound (gather f a b) := by
  intro faults h fault hfault
  rcases a with as | u
  · rcases b with bs | v
    · obtain rfl := Except.error.inj h
      rcases List.mem_append.1 hfault with hfault | hfault
      · exact ha as rfl fault hfault
      · exact hb bs rfl fault hfault
    · obtain rfl := Except.error.inj h
      exact ha as rfl fault hfault
  · rcases b with bs | v
    · obtain rfl := Except.error.inj h
      exact hb bs rfl fault hfault
    · cases h

end Gathered

section Detection

open Gathered

variable (d : Dialect)

theorem compileIn_isSound (content : List Char) (origin : Position) :
    Gathered.IsSound (compileIn d content origin) := by
  intro faults h fault hfault
  rw [compileIn] at h
  rcases hf : compileExpression d (String.ofList content) origin with found | f
  · rw [hf] at h
    obtain rfl := Except.error.inj h
    obtain rfl := List.mem_singleton.1 hfault
    exact compileExpression_isSound d _ _ _ hf
  · rw [hf] at h
    cases h

theorem compileFragments_isSound (c : Cell) (fragments : List Fragment) :
    Gathered.IsSound (compileFragments d c fragments) := by
  induction fragments with
  | nil => exact Gathered.isSound_ok _
  | cons fragment fragments ih =>
    refine gather_isSound ?_ ih _
    cases fragment with
    | text content => exact Gathered.isSound_ok _
    | expression content offset => exact (compileIn_isSound d _ _).map _

theorem stringAction_isSound (c : Cell) (slot : Option Slot) (cs : List Char) :
    Gathered.IsSound (stringAction d c slot cs) := by
  unfold stringAction
  simp only
  split
  · exact Gathered.isSound_malformed _ _
  · split
    · exact (compileIn_isSound d _ _).map _
    · split
      · exact (compileIn_isSound d _ _).map _
      · exact Gathered.isSound_malformed _ _
    · unfold interpolationIn
      split
      · split
        · exact Gathered.isSound_malformed _ _
        · exact (compileFragments_isSound d c _).map _
      · exact Gathered.isSound_ok _

theorem cellAction_isSound (c : Cell) (slot : Option Slot) :
    Gathered.IsSound (cellAction d c slot) := by
  unfold cellAction
  split
  · unfold copyFieldsAction
    split
    · exact (compileIn_isSound d _ _).map _
    · exact Gathered.isSound_malformed _ _
  · split
    · exact stringAction_isSound d c slot _
    · exact Gathered.isSound_ok _

theorem directivesOf_isSound (draft : Draft) (ids : List Nat) :
    Gathered.IsSound (directivesOf d draft ids) := by
  induction ids with
  | nil => exact Gathered.isSound_ok _
  | cons id ids ih =>
    refine gather_isSound ?_ ih _
    unfold directiveOf
    split
    · exact Gathered.isSound_ok _
    · exact (cellAction_isSound d _ _).map _

/-- The faults of the strings of a draft are not those of the library. -/
theorem detect_isSound (draft : Draft) : Gathered.IsSound (detect d draft) :=
  (directivesOf_isSound d draft _).map _

end Detection

/-! ### Carrying them out -/

theorem joinParts_isSound {d : Dialect} {parts : List Part}
    (h : (Action.interpolate parts).IsCompiled d) (c : Context) : (joinParts c parts).IsSound := by
  induction parts with
  | nil => exact Traced.isSound_pure _
  | cons part parts ih =>
    have hrest : (joinParts c parts).IsSound := by
      refine ih fun f hf => h f ?_
      cases hf with
      | part hf => exact .part (List.mem_cons_of_mem _ hf)
    cases part with
    | text content => exact hrest.bind fun _ => Traced.isSound_pure _
    | formula f =>
      obtain ⟨text, p, hf⟩ := h f (.part List.mem_cons_self)
      obtain ⟨e, -, hcompile⟩ := Except.bind_eq_ok_iff.1 hf
      refine (evaluate_isSound hcompile c).bind fun v => ?_
      refine (Traced.isSound_ofExcept (v.display_isSound _)).bind fun s => ?_
      exact hrest.bind fun _ => Traced.isSound_pure _

/-- An action whose formulas come from texts fails only with faults that are not those of the
library. -/
theorem Action.compute_isSound {d : Dialect} {a : Action} (h : a.IsCompiled d) (c : Context) :
    (a.compute c).IsSound := by
  have hformula : ∀ f, a.Has f → (evaluate c f).IsSound := by
    intro f hf
    obtain ⟨text, p, hcompiled⟩ := h f hf
    obtain ⟨e, -, hcompile⟩ := Except.bind_eq_ok_iff.1 hcompiled
    exact evaluate_isSound hcompile c
  cases a with
  | copyFields f => exact hformula f (.copyFields f)
  | merge f => exact hformula f (.merge f)
  | value f => exact hformula f (.value f)
  | interpolate parts => exact (joinParts_isSound h c).bind fun _ => Traced.isSound_pure _

theorem Value.offeredMembers_isSound (p : Position) (v : Value) :
    IsSound (v.offeredMembers p) := by
  refine IsSound.map ?_ _
  unfold sources
  simp only
  split
  · exact isSound_failed _ _
  · split
    · exact isSound_ok _
    · exact isSound_failed _ _

namespace Draft

variable {d : Draft} {w : Workshop} {id : Nat} {outcome : Except Fault Value} {fault : Fault}

theorem writeMembers_isSound {object : Nat} {name : String}
    (hslot : d.slot? id = some (.member object name)) (houtcome : IsSound outcome)
    (h : (d.writeMembers id outcome).2 = some fault) : fault.IsOrdinary := by
  have hoffered : IsSound (outcome.bind (Value.offeredMembers (d.positionOf id))) :=
    houtcome.bind (Value.offeredMembers_isSound _)
  rw [writeMembers, hslot] at h
  simp only at h
  split at h
  · rename_i found hfound
    obtain rfl := Option.some.inj h
    exact hoffered _ hfound
  · cases h

theorem writeItems_isSound {array index : Nat} (hslot : d.slot? id = some (.item array index))
    (houtcome : IsSound outcome) (h : (d.writeItems w id outcome).2 = some fault) :
    fault.IsOrdinary := by
  unfold writeItems at h
  split at h
  · obtain rfl := Option.some.inj h
    exact houtcome _ rfl
  · -- the added cells hold finished values, so the item is still where it was
    simp only [splice, slot?_addAll, hslot] at h
    cases h

theorem writeValue_isSound {p : Position} (houtcome : IsSound outcome)
    (h : (d.writeValue w id p outcome).2 = some fault) : fault.IsOrdinary := by
  unfold writeValue at h
  split at h
  · obtain rfl := Option.some.inj h
    exact houtcome _ rfl
  · split at h
    · cases h
    · split at h
      · split at h
        · cases h
        · cases h
      · obtain rfl := Option.some.inj h
        trivial

theorem writeText_isSound (houtcome : IsSound outcome)
    (h : (d.writeText id outcome).2 = some fault) : fault.IsOrdinary := by
  unfold writeText at h
  split at h
  · obtain rfl := Option.some.inj h
    exact houtcome _ rfl
  · cases h

/-- The result of a directive is written without a fault of the library where the directive can be
carried out. -/
theorem write_isSound {x : Directive} (hsits : x.action.SitsIn (d.slot? x.cell))
    (houtcome : IsSound outcome) (h : (d.write w x outcome).2 = some fault) :
    fault.IsOrdinary := by
  rcases x with ⟨cell, f | f | f | parts⟩
  · obtain ⟨object, hslot⟩ := hsits
    exact writeMembers_isSound hslot houtcome h
  · obtain ⟨array, index, hslot⟩ := hsits
    exact writeItems_isSound hslot houtcome h
  · exact writeValue_isSound houtcome h
  · exact writeText_isSound houtcome h

end Draft

/-! ### The whole work -/

/-- A directive still sits where it can be carried out when other directives have been. -/
theorem Action.SitsIn.of_editedBy {n : Nat} {d d' : Draft} {x : Directive} {xs : List Directive}
    (h : x.action.SitsIn (d.slot? x.cell)) (hedit : d.EditedBy xs d') (htree : d'.IsTree n)
    (hbare : ∀ y ∈ xs, d.entries y.cell = []) (hne : ∀ y ∈ xs, y.cell ≠ x.cell) :
    x.action.SitsIn (d'.slot? x.cell) := by
  -- the cell keeps its container, which is none of the changed cells, and an alike key in it
  have hkept : ∀ s, d.slot? x.cell = some s →
      ∃ s', d'.slot? x.cell = some s' ∧ s.key.Alike s'.key := by
    intro s hs
    have hentry := Draft.mem_entries_of_slot? hs
    have howner : ∀ y ∈ xs, y.cell ≠ s.owner := by
      intro y hy heq
      rw [← heq, hbare y hy] at hentry
      cases hentry
    obtain ⟨key, halike, hkey⟩ := hedit.exists_entry hentry howner hne
    obtain ⟨s', hs', -, hsame⟩ := htree.slot?_of_mem hkey
    exact ⟨s', hs', hsame ▸ halike⟩
  rcases x with ⟨cell, f | f | f | parts⟩
  · obtain ⟨object, hslot⟩ := h
    obtain ⟨s, hs, halike⟩ := hkept _ hslot
    rcases s with ⟨object', name⟩ | ⟨array, index⟩
    · cases halike
      exact ⟨object', hs⟩
    · cases halike
  · obtain ⟨array, index, hslot⟩ := h
    obtain ⟨s, hs, halike⟩ := hkept _ hslot
    rcases s with ⟨object, name⟩ | ⟨array', index'⟩
    · cases halike
    · exact ⟨array', index', hs⟩
  · trivial
  · trivial

/-- A directive sits where it can be carried out when it is its turn. -/
theorem Trail.sitsIn {w : Workshop} {n : Nat} {s t : State} {ds es : List Directive}
    {events : List Event} (h : Trail w s ds events t es) (hs : s.IsSound n ds)
    (hsits : ∀ x ∈ ds, x.action.SitsIn (s.draft.slot? x.cell)) :
    ∀ a ∈ events, a.directive.action.SitsIn (a.before.draft.slot? a.directive.cell) := by
  intro a ha
  obtain ⟨earlier, later, -, hearlier, -⟩ := h.exists_between ha
  have hbefore := (hearlier.isSound hs).1
  exact (hsits a.directive (h.directive_mem a ha)).of_editedBy (hearlier.editedBy hs)
    hbefore.tree (hearlier.settled_bare hs) (hearlier.settled_ne hs List.mem_cons_self)

/-- An event reports no fault of the library. -/
theorem Event.fault?_isOrdinary {w : Workshop} {a : Event} {fault : Fault}
    (hsits : a.directive.action.SitsIn (a.before.draft.slot? a.directive.cell))
    (hcomputed : (a.computed w).IsSound) (h : a.fault? w = some fault) : fault.IsOrdinary := by
  rcases a with ⟨x, others, s, fate⟩
  cases fate with
  | written => exact Draft.write_isSound hsits hcomputed h
  | deferred => cases h
  | skipped => cases h
  | circular => exact Draft.write_isSound hsits (isSound_failed _ _) h

/-- The events of the work on a text compute without a fault of the library, and where they can be
carried out. -/
theorem Engine.history_isSound {e : Engine} {source : SourceText} {parents : List Document}
    {tree : Source} {directives : List Directive}
    (hread : readJson source.text = .ok tree)
    (hdetect : detect e.dialect (.ofSource tree) = .ok directives) {a : Event}
    (ha : a ∈ e.history source parents tree directives) :
    (a.computed (e.workshop source parents)).IsSound ∧
      a.directive.action.SitsIn (a.before.draft.slot? a.directive.cell) := by
  have htrail := e.trail_history source parents tree directives
  have hspec : ∀ x ∈ directives, x.action.IsCompiled e.dialect ∧
      x.action.SitsIn ((Draft.ofSource tree).slot? x.cell) :=
    fun x hx => directiveOf_spec (mem_of_detect hdetect hx).2
  constructor
  · exact Action.compute_isSound (hspec _ (htrail.directive_mem a ha)).1 _
  · exact htrail.sitsIn (isSound_start hread hdetect) (fun x hx => (hspec x hx).2) a ha

end DocQuery
