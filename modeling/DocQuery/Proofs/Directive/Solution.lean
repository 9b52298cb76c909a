/-
Finished documents as solutions of their own expressions.

* `Event.readsItself`, `Event.overlooks` — what the work on a document does not wait for;
* `Event.exists_result` — what a value or a text that has been written leaves behind;
* `Trail.solved` — evaluated at the end, the same expressions give what stands in their place;
* `Engine.solves_expressions` — a document without reports is a solution of its expressions.

Design notes: between the moment at which a result is written and the end, only the directives that
are not settled yet change anything, and a result that has come across none of their places and not
its own is the same at the end. The result itself is left alone from then on.
-/
import DocQuery.Proofs.Directive.Prospect
import DocQuery.Proofs.Draft.Removal
import DocQuery.Proofs.Value.Placing

namespace DocQuery

open Workshop (State)

namespace Event

/-- Whether the action has come across the place that it changes itself. -/
def readsItself (w : Workshop) (e : Event) : Bool :=
  (e.computed w).dependsOn (pendingPaths w e.before.draft [e.directive])

/-- Whether the action has come across a place that another directive is still to change, without
noticing it. -/
def overlooks (w : Workshop) (e : Event) : Bool :=
  (e.computed w).sightings.any fun s =>
    !s.isNoticed && (pendingPaths w e.before.draft e.others).any s.reaches

end Event

/-- Whether a value stands, as JSON, in the place of the string of a directive. -/
def Stands (source final : Draft) (document : Document) (x : Directive) (v : Value) : Prop :=
  ∃ keys keys' m, source.walk.lookup x.cell = some keys ∧ final.walk.lookup x.cell = some keys' ∧
    AlikeKeys keys keys' ∧ document.root.at? keys' = some m ∧ m.toJson = v.asJson

/-- Whether the string of a directive has left nothing behind. A member of its name may only have
been brought by one of `others`. -/
def IsGone (source final : Draft) (document : Document) (x : Directive) (others : List Directive) :
    Prop :=
  final.walk.lookup x.cell = none ∧
    ∀ keys name, source.walk.lookup x.cell = some (keys ++ [.member name]) →
      (∃ y ∈ others, y.action.grows ∧ ∃ key, source.walk.lookup y.cell = some (keys ++ [key])) ∨
        ∃ object keys' place members, source.walk.lookup object = some keys ∧
          final.walk.lookup object = some keys' ∧
          document.root.at? keys' = some (.object place members) ∧ name ∉ members.map (·.1)

variable {w : Workshop} {n : Nat} {s t : State} {ds : List Directive} {events : List Event}
  {e : Event}

/-! ### What is written -/

/-- What a cell that names no other is as JSON. -/
def Content.leafJson? : Content → Option Json
  | .scalar s => some s.toJson
  | .imported m => some m.toJson
  | .object _ | .array _ => none

theorem Content.Edited.eq_of_leaf {xs : List Directive} {first : Nat} {c c' : Content} {json : Json}
    (h : Content.Edited xs first c c') (hjson : c.leafJson? = some json) : c' = c := by
  cases h with
  | object _ => simp [Content.leafJson?] at hjson
  | array _ => simp [Content.leafJson?] at hjson
  | scalar s => rfl
  | imported v => rfl

theorem Draft.toJson_freezeFrom_leaf {d : Draft} {fuel id : Nat} {path : Path} {c : Content}
    {json : Json} (hc : d.content? id = some c) (hjson : c.leafJson? = some json) :
    (d.freezeFrom (fuel + 1) path id).toJson = json := by
  cases c with
  | object _ => simp [Content.leafJson?] at hjson
  | array _ => simp [Content.leafJson?] at hjson
  | scalar s =>
    rw [freezeFrom_scalar hc]
    exact Option.some.inj hjson
  | imported v =>
    rw [freezeFrom_imported hc, Node.toJson_moved]
    exact Option.some.inj hjson

/-- Whether the draft `d` with the value `v` written into the cell `id` is `after`. The cell is taken
out if the value is nothing. -/
def IsResult (d after : Draft) (id : Nat) (v : Value) : Prop :=
  (∃ c, c.leafJson? = some v.asJson ∧ after = d.setContent id c ∧ (v = .undefined → id = d.root)) ∨
    v = .undefined ∧ id ≠ d.root ∧ after = d.without id

theorem Draft.writeValue_result {d : Draft} {id : Nat} {position : Position}
    {outcome : Except Fault Value} (hfault : (d.writeValue w id position outcome).2 = none) :
    ∃ v, outcome = .ok v ∧ IsResult d (d.writeValue w id position outcome).1 id v := by
  rcases outcome with fault | v
  · simp [writeValue] at hfault
  · refine ⟨v, rfl, ?_⟩
    rw [writeValue] at hfault ⊢
    rcases hplaced : v.placedIn w.id with _ | m
    · rw [hplaced] at hfault
      simp only at hfault ⊢
      obtain rfl := Value.placedIn_eq_none_iff.1 hplaced
      by_cases hremoves : w.options.removesUndefined
      · rw [if_pos hremoves]
        by_cases hroot : id = d.root
        · rw [if_pos hroot]
          exact .inl ⟨.scalar .null, rfl, rfl, fun _ => hroot⟩
        · rw [if_neg hroot]
          exact .inr ⟨rfl, hroot, rfl⟩
      · -- a value that is nothing and stays is reported
        rw [if_neg hremoves] at hfault
        simp at hfault
    · refine .inl ⟨.imported m, ?_, rfl, ?_⟩
      · rw [Content.leafJson?, Value.toJson_placedIn hplaced]
      · rintro rfl
        simp [Value.placedIn, Value.toNode?] at hplaced

theorem Draft.writeText_result {d : Draft} {id : Nat} {outcome : Except Fault Value}
    (hfault : (d.writeText id outcome).2 = none) (htext : ∀ v, outcome = .ok v → ∃ s, v = .text s) :
    ∃ v, outcome = .ok v ∧ IsResult d (d.writeText id outcome).1 id v := by
  rcases outcome with fault | v
  · simp [writeText] at hfault
  · obtain ⟨text, rfl⟩ := htext v rfl
    exact ⟨.text text, rfl, .inl ⟨.scalar (.quoted text), rfl, rfl, by simp⟩⟩

/-- What a value or a text that has been written leaves behind. -/
theorem Event.exists_result (hfate : e.fate = .written) (hgrows : ¬ e.directive.action.grows)
    (hfault : e.fault? w = none) :
    ∃ v, (e.computed w).outcome = .ok v ∧
      IsResult e.before.draft (e.after w).draft e.directive.cell v := by
  rcases e with ⟨⟨cell, action⟩, others, s, fate⟩
  obtain rfl : fate = .written := hfate
  cases action with
  | copyFields f => simp [Action.grows] at hgrows
  | merge f => simp [Action.grows] at hgrows
  | value f => exact Draft.writeValue_result hfault
  | interpolate parts =>
    exact Draft.writeText_result hfault fun v hv => Action.compute_interpolate hv

/-! ### Before and after an event -/

theorem mem_pendingPaths_cons {d : Draft} {x : Directive} {xs : List Directive} {q : Path} :
    q ∈ pendingPaths w d (x :: xs) ↔ q ∈ pendingPaths w d [x] ∨ q ∈ pendingPaths w d xs := by
  rw [← List.mem_append, pendingPaths, pendingPaths, pendingPaths, ← List.filterMap_append]
  rfl

/-- What has been written depends on no place that is still to change, unless it reads itself or
overlooks one. -/
theorem Event.unreached (hfounded : e.IsFounded w) (hfate : e.fate = .written)
    (hself : e.readsItself w = false) (hoverlooks : e.overlooks w = false) :
    Unreached (pendingPaths w e.before.draft (e.directive :: e.others))
      (e.computed w).sightings := by
  intro s hs q hq hreaches
  rcases mem_pendingPaths_cons.1 hq with hown | hother
  · exact Traced.dependsOn_eq_false.1 hself s hs q hown hreaches
  · rcases hnoticed : s.isNoticed
    · -- a place that the work does not notice would have been overlooked
      rw [overlooks, List.any_eq_false] at hoverlooks
      refine hoverlooks s hs ?_
      rw [hnoticed, Bool.not_false, Bool.true_and, List.any_eq_true]
      exact ⟨q, hother, hreaches⟩
    · -- and for one that it notices the directive would have waited
      rw [IsFounded, hfate] at hfounded
      refine hfounded.2 ?_
      rw [meetsOthers, Traced.touches, List.any_eq_true]
      refine ⟨s, hs, ?_⟩
      rw [List.any_eq_true]
      refine ⟨q, hother, ?_⟩
      rw [Sighting.touches, hnoticed, hreaches]
      rfl

/-- Whether an event is part of work that leads from `s` to `t`: what comes before it leaves its
directive alone, and what comes after it is about other directives. -/
structure Event.IsBetween (w : Workshop) (n : Nat) (s t : State) (e : Event) : Prop where
  tree : s.draft.IsTree n
  final_tree : t.draft.IsTree n
  fits : ∀ y ∈ e.directive :: e.others, y.Fits n s.draft
  sound : e.before.IsSound n (e.directive :: e.others)
  sound_after : (e.after w).IsSound n e.others
  earlier : ∃ xs, s.draft.EditedBy xs e.before.draft ∧
    ∀ x ∈ xs, s.draft.entries x.cell = [] ∧ x.cell ≠ e.directive.cell
  later : (e.after w).draft.EditedBy e.others t.draft

theorem Trail.isBetween (h : Trail w s ds events t []) (hs : s.IsSound n ds) (he : e ∈ events)
    (hfate : e.fate = .written) : e.IsBetween w n s t := by
  obtain ⟨earlier, later, _, hearlier, hlater⟩ := h.exists_between he
  have hbefore := (hearlier.isSound hs).1
  have hafter := e.isSound_after (w := w) hbefore
  -- what has been written is settled, so the others are what the rest of the trail settles
  have hunsettled : e.unsettled = e.others := by
    rw [Event.unsettled, Event.settles, hfate]
    rfl
  rw [hunsettled] at hlater hafter
  have hsettled : settled later ⊆ e.others := by
    have hperm := hlater.settled_perm
    rw [List.append_nil] at hperm
    exact hperm.subset
  refine ⟨hs.tree, (h.isSound hs).1.tree, fun y hy => ?_, hbefore, hafter, ?_, ?_⟩
  · exact hs.fits y (hearlier.settled_perm.subset (List.mem_append_right _ hy))
  · refine ⟨settled earlier, hearlier.editedBy hs, fun x hx => ⟨?_, ?_⟩⟩
    · exact hearlier.settled_bare hs x hx
    · exact hearlier.settled_ne hs List.mem_cons_self x hx
  · exact (hlater.editedBy hafter).mono hsettled

namespace Event.IsBetween

variable {keys : List Key} {id : Nat}

/-- From the moment of an event on, only its directive and those not settled change anything. -/
theorem editedBy (h : e.IsBetween w n s t) :
    e.before.draft.EditedBy (e.directive :: e.others) t.draft := by
  refine (e.edits h.sound).1.trans h.later fun y hy => ?_
  have hlt := (h.sound.fits y (List.mem_cons_of_mem _ hy)).lt
  have hsize := h.sound.tree.size_le
  omega

theorem others_ne (h : e.IsBetween w n s t) : ∀ y ∈ e.others, y.cell ≠ e.directive.cell :=
  fun y hy heq => e.others_ne h.sound y hy e.directive (List.mem_singleton_self _) heq.symm

theorem others_bare (h : e.IsBetween w n s t) :
    ∀ y ∈ e.others, (e.after w).draft.entries y.cell = [] :=
  fun y hy => (h.sound_after.fits y hy).entries_eq_nil

/-- The value of a directive is evaluated to the same at the end. -/
theorem outcome_eq (h : e.IsBetween w n s t) (hfounded : e.IsFounded w) (hfate : e.fate = .written)
    (hself : e.readsItself w = false) (hoverlooks : e.overlooks w = false) :
    (e.directive.action.compute (w.context t.draft)).outcome = (e.computed w).outcome := by
  have hcontext := w.context_agrees h.sound.tree h.final_tree h.editedBy h.sound.fits
  exact outcome_eq_of_steady (compute_steady hcontext e.directive.action)
    (e.unreached hfounded hfate hself hoverlooks)

/-- Keys that lead to a cell when it is the turn of a directive are like those in the text. -/
theorem exists_leads (h : e.IsBetween w n s t) (hleads : s.draft.Leads s.draft.root keys id)
    (hid : s.draft.entries id ≠ [] ∨ id = e.directive.cell) :
    ∃ keys', AlikeKeys keys keys' ∧ e.before.draft.Leads e.before.draft.root keys' id := by
  obtain ⟨xs, hedit, hxs⟩ := h.earlier
  rw [hedit.root_eq]
  refine hedit.exists_leads (fun x hx => (hxs x hx).1) hleads fun x hx heq => ?_
  rcases hid with hid | rfl
  · exact hid (heq ▸ (hxs x hx).1)
  · exact (hxs x hx).2 heq

/-- A value that has been written stands in its place at the end. -/
theorem stands (h : e.IsBetween w n s t) {v : Value} {c : Content}
    (hc : c.leafJson? = some v.asJson)
    (hafter : (e.after w).draft = e.before.draft.setContent e.directive.cell c) :
    Stands s.draft t.draft (w.context t.draft).document e.directive v := by
  have hfits := h.sound.fits e.directive List.mem_cons_self
  obtain ⟨keys, hkeys⟩ := (h.fits e.directive List.mem_cons_self).reached
  obtain ⟨keys₁, halike₁, hkeys₁⟩ := h.exists_leads hkeys (.inr rfl)
  have hkeys₂ : (e.after w).draft.Leads (e.after w).draft.root keys₁ e.directive.cell := by
    rw [hafter]
    exact hkeys₁.setContent hfits.entries_eq_nil
  obtain ⟨keys', halike', hkeys'⟩ := h.later.exists_leads h.others_bare hkeys₂ h.others_ne
  rw [← h.later.root_eq] at hkeys'
  -- nothing but the written content is in the cell, and it stays there
  have hcontent : (e.after w).draft.content? e.directive.cell = some c := by
    obtain ⟨text, htext⟩ := hfits.text
    rw [hafter, Draft.content?_setContent, if_pos rfl, htext]
    rfl
  obtain ⟨c', hc', hedit⟩ := h.later.content hcontent h.others_ne
  obtain rfl := hedit.eq_of_leaf hc
  obtain ⟨rest, _, hat⟩ := h.final_tree.at?_freeze hkeys' w.id
  exact ⟨keys, keys', _, h.tree.lookup_walk_iff.2 hkeys, h.final_tree.lookup_walk_iff.2 hkeys',
    halike₁.trans halike', hat, Draft.toJson_freezeFrom_leaf hc' hc⟩

/-- A cell that has been taken out is not found at the end. -/
theorem lookup_eq_none (h : e.IsBetween w n s t) (hroot : e.directive.cell ≠ e.before.draft.root)
    (hafter : (e.after w).draft = e.before.draft.without e.directive.cell) :
    t.draft.walk.lookup e.directive.cell = none := by
  have hlt := (h.sound.fits e.directive List.mem_cons_self).lt
  have hsize := h.sound_after.tree.size_le
  have hnot : ∀ owner key, (key, e.directive.cell) ∉ (e.after w).draft.entries owner := by
    intro owner key
    rw [hafter]
    exact h.sound.tree.not_mem_without e.directive.cell owner key
  rcases hlast : t.draft.walk.lookup e.directive.cell with _ | keys
  · rfl
  · have hleads := h.final_tree.lookup_walk_iff.1 hlast
    rw [← (e.edits h.sound).1.root_eq] at hroot
    exact absurd hleads (h.later.not_leads h.others_bare (by omega) hroot hnot keys)

/-- A container is about no directive. -/
theorem ne_of_entries (h : e.IsBetween w n s t) (hid : s.draft.entries id ≠ []) :
    ∀ y ∈ e.directive :: e.others, y.cell ≠ id := by
  rintro y hy rfl
  exact hid (h.fits y hy).entries_eq_nil

/-- A container is found at the end. -/
theorem exists_final_leads (h : e.IsBetween w n s t) (hid : s.draft.entries id ≠ [])
    (hleads : s.draft.Leads s.draft.root keys id) :
    ∃ keys', t.draft.Leads t.draft.root keys' id := by
  obtain ⟨keys₁, _, hkeys₁⟩ := h.exists_leads hleads (.inl hid)
  obtain ⟨keys₂, _, hkeys₂⟩ := h.editedBy.exists_leads
    (fun y hy => (h.sound.fits y hy).entries_eq_nil) hkeys₁ (h.ne_of_entries hid)
  rw [← h.editedBy.root_eq] at hkeys₂
  exact ⟨keys₂, hkeys₂⟩

/-- A directive whose cell sits in a container after an event sat there from the start. -/
theorem exists_first_entry (h : e.IsBetween w n s t) {y : Directive} {key : Key}
    (hy : y ∈ e.others) (he : (key, y.cell) ∈ (e.after w).draft.entries id) :
    ∃ key', (key', y.cell) ∈ s.draft.entries id := by
  have hlt := (h.fits y (List.mem_cons_of_mem _ hy)).lt
  have hstart := h.tree.size_le
  have hbefore := h.sound.tree.size_le
  obtain ⟨xs, hedit, hxs⟩ := h.earlier
  obtain ⟨_, he⟩ :=
    (e.edits h.sound).1.exists_old_entry (e.directive_bare h.sound) (by omega) he
  exact hedit.exists_old_entry (fun x hx => (hxs x hx).1) (by omega) he

/-- Of a string that has been taken out of an object, no member is left but one that another
directive adds. -/
theorem exists_members (h : e.IsBetween w n s t) {name : String}
    (hafter : (e.after w).draft = e.before.draft.without e.directive.cell)
    (hentry : (.member name, e.directive.cell) ∈ s.draft.entries id) :
    (∃ y ∈ e.others, y.action.grows ∧ ∃ key, (key, y.cell) ∈ s.draft.entries id) ∨
      ∃ members, t.draft.content? id = some (.object members) ∧ name ∉ members.map (·.1) := by
  have hsome : s.draft.entries id ≠ [] := List.ne_nil_of_mem hentry
  obtain ⟨xs, hedit, hxs⟩ := h.earlier
  obtain ⟨key, halike, hentry'⟩ := hedit.exists_entry hentry
    (fun x hx heq => hsome (heq ▸ (hxs x hx).1)) fun x hx => (hxs x hx).2
  obtain rfl : .member name = key := by cases halike; rfl
  obtain ⟨members, hmembers, hname⟩ := h.sound.tree.exists_members_without hentry'
  rw [← hafter] at hmembers
  by_cases hgrows : ∃ y ∈ e.others, y.action.grows ∧ ∃ m ∈ members, y.cell = m.2
  · obtain ⟨y, hy, hgrows, m, hm, hcell⟩ := hgrows
    have hadded : (.member m.1, y.cell) ∈ (e.after w).draft.entries id := by
      rw [Draft.entries_of_content? hmembers, hcell]
      exact List.mem_map_of_mem (f := fun m => (Key.member m.1, m.2)) hm
    exact .inl ⟨y, hy, hgrows, h.exists_first_entry hy hadded⟩
  · obtain ⟨members', hmembers', hsub⟩ := h.later.exists_members hmembers
      (fun y hy => h.ne_of_entries hsome y (List.mem_cons_of_mem _ hy)) fun y hy m hm hcell hgrow =>
        hgrows ⟨y, hy, hgrow, m, hm, hcell⟩
    refine .inr ⟨members', hmembers', fun hin => hname ?_⟩
    obtain ⟨m, hm, rfl⟩ := List.mem_map.1 hin
    exact List.mem_map_of_mem (hsub hm)

/-- A string that has been taken out leaves nothing behind. -/
theorem isGone (h : e.IsBetween w n s t) (hroot : e.directive.cell ≠ e.before.draft.root)
    (hafter : (e.after w).draft = e.before.draft.without e.directive.cell) :
    IsGone s.draft t.draft (w.context t.draft).document e.directive e.others := by
  refine ⟨h.lookup_eq_none hroot hafter, fun keys name hlookup => ?_⟩
  obtain ⟨object, hobject, hentry⟩ := (h.tree.lookup_walk_iff.1 hlookup).exists_owner
  rcases h.exists_members hafter hentry with ⟨y, hy, hgrows, key, hold⟩ | ⟨members, hc, hname⟩
  · exact .inl ⟨y, hy, hgrows, key, h.tree.lookup_walk_iff.2 (hobject.snoc hold)⟩
  · obtain ⟨keys', hkeys'⟩ := h.exists_final_leads (List.ne_nil_of_mem hentry) hobject
    obtain ⟨rest, _, hat⟩ := h.final_tree.at?_freeze hkeys' w.id
    rw [h.final_tree.freezeFrom_object hc] at hat
    refine .inr ⟨object, keys', _, _, h.tree.lookup_walk_iff.2 hobject,
      h.final_tree.lookup_walk_iff.2 hkeys', hat, ?_⟩
    -- the names of the frozen members are those of the members
    rw [List.map_map]
    exact hname

end Event.IsBetween

/-! ### Solutions -/

/-- Whether the value of a directive is what has become of its string. Of a string outside the root
that is worth nothing, nothing is left. -/
def Solves (source final : Draft) (document : Document) (x : Directive) (others : List Directive)
    (v : Value) : Prop :=
  (v = .undefined ∧ x.cell ≠ source.root ∧ IsGone source final document x others) ∨
    ((v = .undefined → x.cell = source.root) ∧ Stands source final document x v)

/-- What an action gives at the end is what has become of its string. -/
theorem Trail.solved (h : Trail w s ds events t []) (hs : s.IsSound n ds) (he : e ∈ events)
    (hfate : e.fate = .written) (hgrows : ¬ e.directive.action.grows) (hfault : e.fault? w = none)
    (hself : e.readsItself w = false) (hoverlooks : e.overlooks w = false) :
    ∃ v, (e.directive.action.compute (w.context t.draft)).outcome = .ok v ∧
      Solves s.draft t.draft (w.context t.draft).document e.directive e.others v := by
  have hbetween := h.isBetween hs he hfate
  have houtcome := hbetween.outcome_eq (h.isFounded e he) hfate hself hoverlooks
  obtain ⟨xs, hedit, _⟩ := hbetween.earlier
  obtain ⟨v, hv, ⟨c, hc, hafter, hroot⟩ | ⟨hundefined, hroot, hafter⟩⟩ :=
    e.exists_result hfate hgrows hfault
  · refine ⟨v, houtcome.trans hv, .inr ⟨?_, hbetween.stands hc hafter⟩⟩
    rw [← hedit.root_eq]
    exact hroot
  · refine ⟨v, houtcome.trans hv, .inl ⟨hundefined, ?_, hbetween.isGone hroot hafter⟩⟩
    rw [← hedit.root_eq]
    exact hroot

/-- Without faults, a value or a text has been written for every such directive. -/
theorem Trail.exists_written (h : Trail w s ds events t []) (hs : s.IsSound n ds)
    (hfaults : ∀ e ∈ events, e.fault? w = none) {x : Directive} (hx : x ∈ ds)
    (hgrows : ¬ x.action.grows) : ∃ e ∈ events, e.directive = x ∧ e.fate = .written := by
  have hsettled := h.settled_perm
  rw [List.append_nil] at hsettled
  obtain ⟨e, he, rfl⟩ := List.mem_map.1 (hsettled.mem_iff.2 hx)
  obtain ⟨he, hsettles⟩ := List.mem_filter.1 he
  refine ⟨e, he, rfl, ?_⟩
  have hskipped := h.fate_ne_skipped hs e he
  have hfault := hfaults e he
  rcases e with ⟨⟨cell, action⟩, others, s, fate⟩
  cases fate with
  | written => rfl
  | deferred => simp [Event.settles] at hsettles
  | skipped => exact absurd rfl hskipped
  | circular =>
    -- such a failure of a value or a text is always reported
    cases action with
    | copyFields f => simp [Action.grows] at hgrows
    | merge f => simp [Action.grows] at hgrows
    | value f => simp [Event.fault?, Draft.write, Draft.writeValue] at hfault
    | interpolate parts => simp [Event.fault?, Draft.write, Draft.writeText] at hfault

namespace Engine

/-- A document without reports is a solution of its own expressions: a value or a text that was
computed without reading itself and without overlooking a place that was still to change is what
its expressions give in the finished document. -/
theorem solves_expressions (e : Engine) (source : SourceText) (parents : List Document)
    {tree : Source} {directives : List Directive} (hread : readJson source.text = .ok tree)
    (hdetect : detect e.dialect (.ofSource tree) = .ok directives)
    (hreports : (e.compileWithParents source parents).reports = []) :
    ∃ d, (e.compileWithParents source parents).documents = [d] ∧
      ∀ x ∈ directives, ¬ x.action.grows →
        (∃ a ∈ e.history source parents tree directives, a.directive = x ∧ a.fate = .written) ∧
          ∀ a ∈ e.history source parents tree directives, a.directive = x → a.fate = .written →
            a.readsItself (e.workshop source parents) = false →
              a.overlooks (e.workshop source parents) = false →
                ∃ v, (x.action.compute ⟨d, e.options, e.now, []⟩).outcome = .ok v ∧
                  Solves (.ofSource tree) (e.finalState source parents tree directives).draft d x
                    a.others v := by
  have hstart := isSound_start hread hdetect
  have htrail := e.trail_history source parents tree directives
  rw [e.compileWithParents_eq parents hread hdetect] at hreports ⊢
  -- every fault of an event is among the reports
  have hfaults : ∀ a ∈ e.history source parents tree directives,
      a.fault? (e.workshop source parents) = none := by
    have hnil := htrail.faults_eq
    rw [List.nil_append, List.map_eq_nil_iff.1 hreports] at hnil
    exact List.filterMap_eq_nil_iff.1 hnil.symm
  refine ⟨_, rfl, fun x hx hgrows => ⟨?_, ?_⟩⟩
  · exact htrail.exists_written hstart hfaults hx hgrows
  · rintro a ha rfl hfate hself hoverlooks
    exact htrail.solved hstart ha hfate hgrows (hfaults a ha) hself hoverlooks

/-- Values that wait for one another's results, a text, and a value that is worth nothing. -/
def chainText : SourceText :=
  ⟨"D", "\x7b\"T\":\"<$(A)>\",\"A\":\"$value(B)\",\"B\":\"$value(C.X)\",\"C\":\x7b\"X\":1\x7d," ++
    "\"E\":[\"$value(Missing)\"]\x7d"⟩

theorem solves_expressions_chain :
    let e := Engine.standard (.midnight ⟨2024, 1, 1⟩)
    ∃ tree directives, readJson chainText.text = .ok tree ∧
      detect e.dialect (.ofSource tree) = .ok directives ∧ directives.length = 4 ∧
        (e.compileWithParents chainText []).reports = [] ∧
          ∃ d, (e.compileWithParents chainText []).documents = [d] ∧
            ∀ x ∈ directives, ¬ x.action.grows ∧ ∃ others v,
              (x.action.compute ⟨d, e.options, e.now, []⟩).outcome = .ok v ∧
                Solves (.ofSource tree) (e.finalState chainText [] tree directives).draft d x
                  others v := by
  intro e
  have hchain : ((readJson chainText.text).toOption.bind fun tree =>
      (detect e.dialect (.ofSource tree)).toOption.map fun directives =>
        decide (directives.length = 4 ∧ (∀ x ∈ directives, ¬ x.action.grows) ∧
          ∀ a ∈ e.history chainText [] tree directives, a.fate = .written →
            a.readsItself (e.workshop chainText []) = false ∧
              a.overlooks (e.workshop chainText []) = false)) = some true := by
    decide +kernel
  have hreports : (e.compileWithParents chainText []).reports = [] := by decide +kernel
  obtain ⟨tree, htree, hfound⟩ := Option.bind_eq_some_iff.1 hchain
  obtain ⟨directives, hdirectives, hholds⟩ := Option.map_eq_some_iff.1 hfound
  have hread := Except.toOption_eq_some_iff.1 htree
  have hdetect := Except.toOption_eq_some_iff.1 hdirectives
  obtain ⟨hlength, hgrows, hconditions⟩ := of_decide_eq_true hholds
  obtain ⟨d, hd, hsolves⟩ := solves_expressions e chainText [] hread hdetect hreports
  refine ⟨tree, directives, hread, hdetect, hlength, hreports, d, hd, fun x hx => ?_⟩
  obtain ⟨⟨a, ha, hdirective, hfate⟩, hall⟩ := hsolves x hx (hgrows x hx)
  obtain ⟨hself, hoverlooks⟩ := hconditions a ha hfate
  exact ⟨hgrows x hx, a.others, hall a ha hdirective hfate hself hoverlooks⟩

/-- A value that contains its own string, one that searches an item which is still to change, and one
that is worth nothing beside members that are copied later. -/
def unsolvedTexts : List (SourceText × List Key) :=
  [(⟨"D", "\x7b\"A\":\x7b\"X\":\"$value(A)\"\x7d\x7d"⟩, [.member "A", .member "X"]),
    (⟨"D", "\x7b\"V\":\"$value(A.X)\",\"A\":[\"$value(B)\"],\"B\":\x7b\"X\":1\x7d\x7d"⟩,
      [.member "V"]),
    (⟨"D", "\x7b\"O\":\x7b\"A\":\"$value(Missing)\",\"$copyFields\":\"P\"\x7d," ++
      "\"P\":\x7b\"A\":1,\"B\":\"$value(C)\"\x7d,\"C\":2\x7d"⟩, [.member "O", .member "A"])]

/-- A document without reports may hold what its expressions do not give. -/
theorem unsolvedTexts_have_no_reports :
    let e := Engine.standard (.midnight ⟨2024, 1, 1⟩)
    ∀ p ∈ unsolvedTexts, (e.compileWithParents p.1 []).reports = [] ∧
      ∃ tree directives x d v m, readJson p.1.text = .ok tree ∧
        detect e.dialect (.ofSource tree) = .ok directives ∧ x ∈ directives ∧
          x.action.kind = .value ∧ (Draft.ofSource tree).walk.lookup x.cell = some p.2 ∧
            (e.compileWithParents p.1 []).documents = [d] ∧
              (x.action.compute ⟨d, e.options, e.now, []⟩).outcome = .ok v ∧
                d.root.at? p.2 = some m ∧ m.toJson.compact ≠ v.asJson.compact := by
  intro e p hp
  have hunsolved : ∀ p ∈ unsolvedTexts, (e.compileWithParents p.1 []).reports = [] ∧
      ((readJson p.1.text).toOption.bind fun tree =>
        (detect e.dialect (.ofSource tree)).toOption.bind fun directives =>
          (directives.find? fun x => x.action.kind = .value ∧
              (Draft.ofSource tree).walk.lookup x.cell = some p.2).bind fun x =>
            (e.compileWithParents p.1 []).documents.head?.bind fun d =>
              (x.action.compute ⟨d, e.options, e.now, []⟩).outcome.toOption.bind fun v =>
                (d.root.at? p.2).map fun m => decide (m.toJson.compact ≠ v.asJson.compact)) =
        some true := by
    decide +kernel
  obtain ⟨hreports, hfound⟩ := hunsolved p hp
  obtain ⟨tree, htree, hfound⟩ := Option.bind_eq_some_iff.1 hfound
  obtain ⟨directives, hdirectives, hfound⟩ := Option.bind_eq_some_iff.1 hfound
  obtain ⟨x, hx, hfound⟩ := Option.bind_eq_some_iff.1 hfound
  obtain ⟨d, hd, hfound⟩ := Option.bind_eq_some_iff.1 hfound
  obtain ⟨v, hv, hfound⟩ := Option.bind_eq_some_iff.1 hfound
  obtain ⟨m, hm, hdiffer⟩ := Option.map_eq_some_iff.1 hfound
  have hread := Except.toOption_eq_some_iff.1 htree
  have hdetect := Except.toOption_eq_some_iff.1 hdirectives
  have hplace := List.find?_some hx
  rw [decide_eq_true_iff] at hplace
  have hone : (e.compileWithParents p.1 []).documents = [d] := by
    rw [e.compileWithParents_eq [] hread hdetect] at hd ⊢
    rw [Option.some.inj hd]
  exact ⟨hreports, tree, directives, x, d, v, m, hread, hdetect, List.mem_of_find?_eq_some hx,
    hplace.1, hplace.2, hone, Except.toOption_eq_some_iff.1 hv, hm, of_decide_eq_true hdiffer⟩

end Engine

end DocQuery
