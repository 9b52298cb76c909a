/-
Directives that wait for one another in a ring.

* `LooksUp` — whenever a directive is tried, it comes across the place of another one;
* `Trail.ring_waits` — as long as none fails as circular, all directives of a ring wait;
* `Workshop.fails_of_ring` — in the end all of them fail as circular;
* `Engine.ring_fails` — all of them are reported, and their strings stand as they were written.

Design notes: what decides is that each directive of a ring is put off while the next one is not
settled. So none of them can be the first to be settled, unless all that wait fail.
-/
import Mathlib.Data.List.Rotate
import DocQuery.Proofs.Directive.Invariant
import DocQuery.Proofs.Draft.Frozen

namespace DocQuery

open Workshop (State)

/-- Whether `x`, whenever it is tried, comes across the place of `y`. -/
def LooksUp (w : Workshop) (events : List Event) (x y : Directive) : Prop :=
  ∀ e ∈ events, e.directive.cell = x.cell → e.fate ≠ .circular →
    (e.computed w).touches (pendingPaths w e.before.draft [y])

instance (w : Workshop) (events : List Event) (x y : Directive) :
    Decidable (LooksUp w events x y) :=
  inferInstanceAs (Decidable (∀ e ∈ events, _ → _ → _))

/-- Whether each directive of a list looks up the next one, and the last one the first. -/
def IsRing (w : Workshop) (events : List Event) (ring : List Directive) : Prop :=
  ∀ p ∈ ring.zip (ring.rotate 1), LooksUp w events p.1 p.2

instance (w : Workshop) (events : List Event) (ring : List Directive) :
    Decidable (IsRing w events ring) :=
  inferInstanceAs (Decidable (∀ p ∈ ring.zip (ring.rotate 1), _))

variable {w : Workshop} {n : Nat} {s t : State} {ds es ring : List Directive}
  {events more : List Event}

theorem LooksUp.mono {x y : Directive} (h : LooksUp w events x y) (hsub : more ⊆ events) :
    LooksUp w more x y :=
  fun e he => h e (hsub he)

/-- In a ring of two directives or more, each looks up another one. -/
theorem IsRing.exists_other (h : IsRing w events ring) (hlength : 2 ≤ ring.length)
    (hcells : (ring.map (·.cell)).Nodup) {x : Directive} (hx : x ∈ ring) :
    ∃ y ∈ ring, y.cell ≠ x.cell ∧ LooksUp w events x y := by
  obtain ⟨i, hi, rfl⟩ := List.getElem_of_mem hx
  have hnext : (i + 1) % ring.length < ring.length := Nat.mod_lt _ (by omega)
  have hrotate : i < (ring.rotate 1).length := by rwa [List.length_rotate]
  have hpair : (ring[i], ring[(i + 1) % ring.length]) ∈ ring.zip (ring.rotate 1) := by
    refine List.mem_iff_getElem.2 ⟨i, by rw [List.length_zip, List.length_rotate]; omega, ?_⟩
    rw [List.getElem_zip, List.getElem_rotate]
  refine ⟨ring[(i + 1) % ring.length], List.getElem_mem hnext, fun heq => ?_, h _ hpair⟩
  have helem : ring[(i + 1) % ring.length] = ring[i] :=
    List.inj_on_of_nodup_map hcells (List.getElem_mem hnext) hx heq
  -- the next one of two or more is at another position
  have hsame : (i + 1) % ring.length = i := (hcells.of_map _).getElem_inj_iff.1 helem
  rcases Nat.lt_or_ge (i + 1) ring.length with hlt | hge
  · rw [Nat.mod_eq_of_lt hlt] at hsame
    omega
  · have hlast : i + 1 = ring.length := by omega
    rw [hlast, Nat.mod_self] at hsame
    omega

/-- As long as no directive fails as circular, all directives of a ring wait. -/
theorem Trail.ring_waits (h : Trail w s ds events t es) (hs : s.IsSound n ds)
    (hring : ∀ x ∈ ring, x ∈ ds) (hfate : ∀ e ∈ events, e.fate ≠ .circular)
    (hlooks : ∀ x ∈ ring, ∃ y ∈ ring, y.cell ≠ x.cell ∧ LooksUp w events x y) :
    (∀ x ∈ ring, x ∈ es) ∧ ∀ e ∈ events, e.directive ∈ ring → e.fate = .deferred := by
  induction h with
  | done hp => exact ⟨fun x hx => hp.subset (hring x hx), by simp⟩
  | @step e events t ds es hp hfounded _ ih =>
    have hbefore := hs.of_perm hp.symm
    have hmem : ∀ x ∈ ring, x = e.directive ∨ x ∈ e.others := by
      intro x hx
      exact List.mem_cons.1 (hp.mem_iff.2 (hring x hx))
    -- the next one of the ring still waits, so this one comes across its place
    have hown : e.directive ∈ ring → e.fate = .deferred := by
      intro hin
      obtain ⟨y, hy, hne, hlook⟩ := hlooks e.directive hin
      have hother : y ∈ e.others := by
        rcases hmem y hy with rfl | hother
        · exact absurd rfl hne
        · exact hother
      have hmeets : e.meetsOthers w := by
        rw [Event.meetsOthers, Workshop.touches_pendingPaths_iff]
        exact ⟨y, hother, hlook e List.mem_cons_self rfl (hfate e List.mem_cons_self)⟩
      have hattached := (hbefore.fits e.directive List.mem_cons_self).isAttached
      rw [Event.IsFounded] at hfounded
      rcases hf : e.fate
      · rw [hf] at hfounded
        exact absurd hmeets hfounded.2
      · rfl
      · rw [hf] at hfounded
        exact absurd hattached hfounded
      · exact absurd hf (hfate e List.mem_cons_self)
    have hrest : ∀ x ∈ ring, x ∈ e.unsettled := by
      intro x hx
      rw [Event.unsettled]
      rcases hmem x hx with rfl | hother
      · have hsettles : e.settles = false := by
          rw [Event.settles, hown hx]
          rfl
        rw [hsettles]
        exact List.mem_cons_self
      · split
        · exact hother
        · exact List.mem_cons_of_mem _ hother
    obtain ⟨hlast, hall⟩ := ih (e.isSound_after hbefore) hrest
      (fun e' he' => hfate e' (List.mem_cons_of_mem _ he')) fun x hx => by
        obtain ⟨y, hy, hne, hlook⟩ := hlooks x hx
        exact ⟨y, hy, hne, hlook.mono (List.subset_cons_self e events)⟩
    refine ⟨hlast, fun e' he' => ?_⟩
    rcases List.mem_cons.1 he' with rfl | he'
    · exact hown
    · exact hall e' he'

namespace Workshop

theorem mem_failures {s : State} {directives : List Directive} {e : Event}
    (h : e ∈ w.failures s directives) : e.fate = .circular ∨ e.fate = .skipped := by
  induction directives generalizing s with
  | nil => simp [failures] at h
  | cons x rest ih =>
    rw [failures] at h
    rcases List.mem_cons.1 h with rfl | h
    · simp only
      split
      · exact .inl rfl
      · exact .inr rfl
    · exact ih h

/-- The directives of a ring are put off until they fail as circular. -/
theorem fails_of_ring {fuel : Nat} (hfuel : ds.length ≤ fuel) (hs : s.IsSound n ds)
    (hring : ∀ x ∈ ring, x ∈ ds)
    (hlooks : ∀ x ∈ ring, ∃ y ∈ ring, y.cell ≠ x.cell ∧
      LooksUp w (w.rounds fuel s ds).flatten x y) :
    ∀ e ∈ (w.rounds fuel s ds).flatten, e.directive ∈ ring →
      e.fate = .deferred ∨ e.fate = .circular := by
  induction fuel generalizing s ds with
  | zero => simp [rounds]
  | succ fuel ih =>
    rcases ds with _ | ⟨x, rest⟩
    · simp [rounds]
    · have htrail := w.trail_attempts s [] (x :: rest)
      have hnone : ∀ e ∈ w.attempts s [] (x :: rest), e.fate ≠ .circular :=
        fun e he => (w.isFounded_of_mem_attempts he).2
      rw [round_deferred, round_state, List.nil_append] at htrail
      rw [List.nil_append] at htrail
      rw [rounds] at hlooks ⊢
      split at hlooks
      · rename_i hstuck
        rw [if_pos hstuck, List.flatten_singleton]
        rw [List.flatten_singleton] at hlooks
        obtain ⟨hwaiting, hall⟩ := htrail.ring_waits hs hring hnone fun y hy => by
          obtain ⟨z, hz, hne, hlook⟩ := hlooks y hy
          exact ⟨z, hz, hne, hlook.mono (List.subset_append_left _ _)⟩
        intro e he hin
        rcases List.mem_append.1 he with he | he
        · exact .inl (hall e he hin)
        · rcases mem_failures he with hf | hf
          · exact .inr hf
          · have hsound := (htrail.isSound hs).1
            exact absurd hf ((w.trail_failures _ _).fate_ne_skipped hsound e he)
      · rename_i hprogress
        rw [if_neg hprogress, List.flatten_cons]
        rw [List.flatten_cons] at hlooks
        obtain ⟨hwaiting, hall⟩ := htrail.ring_waits hs hring hnone fun y hy => by
          obtain ⟨z, hz, hne, hlook⟩ := hlooks y hy
          exact ⟨z, hz, hne, hlook.mono (List.subset_append_left _ _)⟩
        have hle := waitingAfter_length_le (w.attempts s [] (x :: rest))
        rw [attempts_length] at hle
        rw [List.length_cons] at hfuel hle hprogress
        have hlater := ih (by omega) (htrail.isSound hs).1 hwaiting fun y hy => by
          obtain ⟨z, hz, hne, hlook⟩ := hlooks y hy
          exact ⟨z, hz, hne, hlook.mono (List.subset_append_right _ _)⟩
        intro e he hin
        rcases List.mem_append.1 he with he | he
        · exact .inl (hall e he hin)
        · exact hlater e he hin

end Workshop

/-- The report of a directive that waits for itself. -/
def circularReport (document : String) (x : Directive) : Report :=
  ⟨document, "circular reference between expressions", x.action.position?⟩

theorem Event.fault?_of_circular {e : Event} (hfate : e.fate = .circular)
    (hvalue : e.directive.action.kind = .value) :
    ∃ fault, e.fault? w = some fault ∧
      ∀ document, Report.ofFault document fault = circularReport document e.directive := by
  rcases e with ⟨⟨cell, action⟩, others, s, fate⟩
  cases action with
  | value f =>
    obtain rfl : fate = .circular := hfate
    exact ⟨_, rfl, fun document => rfl⟩
  | copyFields f => exact absurd hvalue (by simp [Action.kind])
  | merge f => exact absurd hvalue (by simp [Action.kind])
  | interpolate parts => exact absurd hvalue (by simp [Action.kind])

/-- A value that fails as circular is not written, nor is one that waits. -/
theorem Event.draft_after_of_value {e : Event} (hfate : e.fate = .deferred ∨ e.fate = .circular)
    (hvalue : e.directive.action.kind = .value) : (e.after w).draft = e.before.draft := by
  rcases e with ⟨⟨cell, action⟩, others, s, fate⟩
  cases action with
  | value f =>
    rcases hfate with hf | hf
    · obtain rfl : fate = .deferred := hf
      rfl
    · obtain rfl : fate = .circular := hf
      rfl
  | copyFields f => exact absurd hvalue (by simp [Action.kind])
  | merge f => exact absurd hvalue (by simp [Action.kind])
  | interpolate parts => exact absurd hvalue (by simp [Action.kind])

theorem map_directive_filter (p : Directive → Bool) (events : List Event) :
    (events.filter fun e => e.settles && p e.directive).map (·.directive) =
      (settled events).filter p := by
  rw [settled, List.filter_map, List.filter_filter]
  simp only [Function.comp_def, Bool.and_comm]

/-- Each directive is settled by one event. -/
theorem exists_settling_event {directives : List Directive} {x : Directive}
    (hsettled : (settled events).Perm directives) (hcells : (directives.map (·.cell)).Nodup)
    (hx : x ∈ directives) :
    ∃ e, events.filter (fun e => e.settles && e.directive.cell == x.cell) = [e] ∧
      e.directive = x := by
  have hmap := map_directive_filter (·.cell == x.cell) events
  have hone : (directives.filter (·.cell == x.cell)).Perm [x] := by
    have hnodup := (hcells.of_map _).filter (·.cell == x.cell)
    refine (List.perm_ext_iff_of_nodup hnodup (List.nodup_singleton x)).2 fun y => ?_
    rw [List.mem_filter, List.mem_singleton, beq_iff_eq]
    constructor
    · rintro ⟨hy, heq⟩
      exact List.inj_on_of_nodup_map hcells hy hx heq
    · rintro rfl
      exact ⟨hx, rfl⟩
  rw [List.perm_singleton.1 ((hsettled.filter _).trans hone)] at hmap
  exact List.map_eq_singleton_iff.1 hmap

/-- Directives that all fail as circular are settled by as many events, one for each of them. -/
theorem exists_failing_events {directives : List Directive}
    (hsettled : (settled events).Perm directives) (hcells : (directives.map (·.cell)).Nodup)
    (hnodup : (ring.map (·.cell)).Nodup)
    (hring : ∀ x ∈ ring, x ∈ directives)
    (hfails : ∀ e ∈ events, e.directive ∈ ring → e.fate = .deferred ∨ e.fate = .circular) :
    ∃ failing : List Event, failing.Sublist events ∧ (failing.map (·.directive)).Perm ring ∧
      ∀ e ∈ failing, e.directive ∈ ring ∧ e.fate = .circular := by
  let inRing (x : Directive) : Bool := (ring.map (·.cell)).contains x.cell
  have hinRing : ∀ x ∈ directives, (inRing x = true ↔ x ∈ ring) := by
    intro x hx
    simp only [inRing, List.contains_iff_mem]
    constructor
    · intro hin
      obtain ⟨y, hy, heq⟩ := List.mem_map.1 hin
      rwa [← List.inj_on_of_nodup_map hcells (hring y hy) hx heq]
    · exact fun hin => List.mem_map_of_mem hin
  refine ⟨events.filter fun e => e.settles && inRing e.directive, List.filter_sublist, ?_, ?_⟩
  · rw [map_directive_filter inRing events]
    -- both lists have no directive twice, and the same ones
    refine (hsettled.filter inRing).trans ?_
    refine (List.perm_ext_iff_of_nodup ?_ (hnodup.of_map _)).2 fun x => ?_
    · exact (hcells.of_map _).filter _
    · rw [List.mem_filter]
      constructor
      · rintro ⟨hx, hin⟩
        exact (hinRing x hx).1 hin
      · intro hx
        exact ⟨hring x hx, (hinRing x (hring x hx)).2 hx⟩
  · intro e he
    obtain ⟨he, hboth⟩ := List.mem_filter.1 he
    obtain ⟨hsettles, hin⟩ := Bool.and_eq_true_iff.1 hboth
    have hmem : e.directive ∈ directives :=
      hsettled.subset (List.mem_map.2 ⟨e, List.mem_filter.2 ⟨he, hsettles⟩, rfl⟩)
    have hin' := (hinRing e.directive hmem).1 hin
    refine ⟨hin', ?_⟩
    rcases hfails e he hin' with hf | hf
    · rw [Event.settles, hf] at hsettles
      exact absurd hsettles (by decide)
    · exact hf

theorem reports_of_failing (document : String) {failing : List Event}
    (hvalues : ∀ x ∈ ring, x.action.kind = .value)
    (hfailing : ∀ e ∈ failing, e.directive ∈ ring ∧ e.fate = .circular) :
    (failing.filterMap (Event.fault? w)).map (.ofFault document) =
      (failing.map (·.directive)).map (circularReport document) := by
  induction failing with
  | nil => rfl
  | cons e failing ih =>
    obtain ⟨hin, hfate⟩ := hfailing e List.mem_cons_self
    obtain ⟨fault, hfault, hreport⟩ := Event.fault?_of_circular (w := w) hfate (hvalues _ hin)
    rw [List.filterMap_cons_some hfault, List.map_cons, hreport, List.map_cons, List.map_cons,
      ih fun e' he' => hfailing e' (List.mem_cons_of_mem _ he')]

/-- Values that fail as circular are reported, each of them once. -/
theorem reports_of_circular {directives : List Directive} (document : String)
    (hsettled : (settled events).Perm directives) (hcells : (directives.map (·.cell)).Nodup)
    (hnodup : (ring.map (·.cell)).Nodup) (hring : ∀ x ∈ ring, x ∈ directives)
    (hvalues : ∀ x ∈ ring, x.action.kind = .value)
    (hfails : ∀ e ∈ events, e.directive ∈ ring → e.fate = .deferred ∨ e.fate = .circular) :
    (ring.map (circularReport document)).Subperm
      ((events.filterMap (Event.fault? w)).map (.ofFault document)) := by
  obtain ⟨failing, hsub, hperm, hfailing⟩ :=
    exists_failing_events hsettled hcells hnodup hring hfails
  refine ⟨_, hperm.map _, ?_⟩
  rw [← reports_of_failing (w := w) document hvalues hfailing]
  exact (hsub.filterMap _).map _

namespace Engine

/-- The values of a ring are all reported as circular, and their strings stay as they were written.
The reports are those of the history, in which each of the ring is settled once, by failing. -/
theorem ring_fails (e : Engine) (source : SourceText) (parents : List Document) {tree : Source}
    {directives : List Directive} (hread : readJson source.text = .ok tree)
    (hdetect : detect e.dialect (.ofSource tree) = .ok directives) (hlength : 2 ≤ ring.length)
    (hcells : (ring.map (·.cell)).Nodup) (hring : ∀ x ∈ ring, x ∈ directives)
    (hvalues : ∀ x ∈ ring, x.action.kind = .value)
    (hlooks : IsRing (e.workshop source parents) (e.history source parents tree directives) ring) :
    (ring.map (circularReport source.id)).Subperm (e.compileWithParents source parents).reports ∧
      (e.compileWithParents source parents).reports =
        ((e.history source parents tree directives).filterMap
          (Event.fault? (e.workshop source parents))).map (.ofFault source.id) ∧
      (∀ x ∈ ring, ∃ e', (e.history source parents tree directives).filter
          (fun e' => e'.settles && e'.directive.cell == x.cell) = [e'] ∧
        e'.directive = x ∧ e'.fate = .circular ∧
          (e'.fault? (e.workshop source parents)).map (.ofFault source.id) =
            some (circularReport source.id x)) ∧
      ∃ d, (e.compileWithParents source parents).documents = [d] ∧
        ∀ x ∈ ring, ∃ content keys keys',
          (Draft.ofSource tree).content? x.cell = some (.scalar ⟨content, true⟩) ∧
          (Draft.ofSource tree).walk.lookup x.cell = some keys ∧
          (e.finalState source parents tree directives).draft.walk.lookup x.cell = some keys' ∧
          AlikeKeys keys keys' ∧
          d.root.at? keys' = some (.scalar (.at ⟨source.id, keys'⟩) ⟨content, true⟩) := by
  have hstart := isSound_start hread hdetect
  have htrail := e.trail_history source parents tree directives
  have hfails := Workshop.fails_of_ring (Nat.le_refl _) hstart hring
    fun x hx => hlooks.exists_other hlength hcells hx
  have hsettled : (settled (e.history source parents tree directives)).Perm directives := by
    have hperm := htrail.settled_perm
    rwa [List.append_nil] at hperm
  have hfaults := htrail.faults_eq
  rw [List.nil_append] at hfaults
  rw [e.compileWithParents_eq parents hread hdetect]
  refine ⟨?_, by rw [hfaults], fun x hx => ?_, _, rfl, fun x hx => ?_⟩
  · rw [hfaults]
    exact reports_of_circular source.id hsettled hstart.nodup hcells hring hvalues hfails
  · obtain ⟨e', hone, rfl⟩ := exists_settling_event hsettled hstart.nodup (hring x hx)
    have hmem : e' ∈ (e.history source parents tree directives).filter
        (fun e'' => e''.settles && e''.directive.cell == e'.directive.cell) := by
      rw [hone]
      exact List.mem_singleton_self e'
    obtain ⟨hhistory, hsettles⟩ := List.mem_filter.1 hmem
    have hcircular : e'.fate = .circular := by
      refine (hfails e' hhistory hx).resolve_left fun hdeferred => ?_
      rw [Event.settles, hdeferred] at hsettles
      exact absurd hsettles (by simp)
    obtain ⟨fault, hfault, hreport⟩ := Event.fault?_of_circular hcircular (hvalues _ hx)
    exact ⟨e', hone, rfl, hcircular, by rw [hfault, Option.map_some, hreport]⟩
  · obtain ⟨content, hcontent⟩ := (hstart.fits x (hring x hx)).text
    obtain ⟨keys, hkeys⟩ := (hstart.fits x (hring x hx)).reached
    have hsame : ∀ e' ∈ e.history source parents tree directives, e'.directive.cell = x.cell →
        (e'.after (e.workshop source parents)).draft = e'.before.draft := by
      intro e' he' heq
      have hmem := htrail.directive_mem e' he'
      obtain rfl := List.inj_on_of_nodup_map hstart.nodup hmem (hring x hx) heq
      exact Event.draft_after_of_value (hfails e' he' hx) (hvalues _ hx)
    obtain ⟨hlast, keys', halike, hleads⟩ := htrail.kept hstart hcontent hkeys hsame
    have hfinal := (htrail.isSound hstart).1.tree
    refine ⟨content, keys, keys', hcontent, hstart.tree.lookup_walk_iff.2 hkeys,
      hfinal.lookup_walk_iff.2 hleads, halike, ?_⟩
    obtain ⟨rest, _, hat⟩ := hfinal.at?_freeze hleads source.id
    rw [Draft.freezeFrom_scalar hlast] at hat
    exact hat

/-- Two values that look up each other, and one that looks up nothing. -/
def pairText : SourceText :=
  ⟨"D", "\x7b\"A\":\"$value(B)\",\"B\":\"$value(A)\",\"C\":\"$value(1)\"\x7d"⟩

theorem ring_fails_pair :
    let e := Engine.standard (.midnight ⟨2024, 1, 1⟩)
    ∃ tree directives, readJson pairText.text = .ok tree ∧
      detect e.dialect (.ofSource tree) = .ok directives ∧ 2 ≤ (directives.take 2).length ∧
        IsRing (e.workshop pairText []) (e.history pairText [] tree directives)
          (directives.take 2) ∧
          ((directives.take 2).map (circularReport pairText.id)).Subperm
            (e.compileWithParents pairText []).reports := by
  intro e
  have hring : ((readJson pairText.text).toOption.bind fun tree =>
      (detect e.dialect (.ofSource tree)).toOption.map fun directives =>
        decide (2 ≤ (directives.take 2).length ∧ ((directives.take 2).map (·.cell)).Nodup ∧
          (∀ x ∈ directives.take 2, x.action.kind = .value) ∧
            IsRing (e.workshop pairText []) (e.history pairText [] tree directives)
              (directives.take 2))) = some true := by
    decide +kernel
  obtain ⟨tree, htree, hfound⟩ := Option.bind_eq_some_iff.1 hring
  obtain ⟨directives, hdirectives, hholds⟩ := Option.map_eq_some_iff.1 hfound
  have hread := Except.toOption_eq_some_iff.1 htree
  have hdetect := Except.toOption_eq_some_iff.1 hdirectives
  obtain ⟨hlength, hcells, hvalues, hlooks⟩ := of_decide_eq_true hholds
  have hfails := ring_fails e pairText [] hread hdetect hlength hcells
    (fun x hx => List.mem_of_mem_take hx) hvalues hlooks
  exact ⟨tree, directives, hread, hdetect, hlength, hlooks, hfails.1⟩

/-- A value that looks up itself. -/
def loneText : SourceText := ⟨"D", "\x7b\"A\":\"$value(A)\"\x7d"⟩

/-- A value that looks up itself is no ring: it finds its own text, and nothing is reported. -/
theorem loneText_has_no_reports :
    let e := Engine.standard (.midnight ⟨2024, 1, 1⟩)
    (∃ tree directives x, readJson loneText.text = .ok tree ∧
      detect e.dialect (.ofSource tree) = .ok directives ∧ directives = [x] ∧
        x.action.kind = .value ∧
          IsRing (e.workshop loneText []) (e.history loneText [] tree directives) [x]) ∧
      (e.compileWithParents loneText []).reports = [] := by
  intro e
  have hlone : ((readJson loneText.text).toOption.bind fun tree =>
      (detect e.dialect (.ofSource tree)).toOption.bind fun directives =>
        directives.head?.map fun x =>
          decide (directives.length = 1 ∧ x.action.kind = .value ∧
            IsRing (e.workshop loneText []) (e.history loneText [] tree directives) [x])) =
        some true := by
    decide +kernel
  refine ⟨?_, by decide +kernel⟩
  obtain ⟨tree, htree, hfound⟩ := Option.bind_eq_some_iff.1 hlone
  obtain ⟨directives, hdirectives, hhead⟩ := Option.bind_eq_some_iff.1 hfound
  obtain ⟨x, hx, hholds⟩ := Option.map_eq_some_iff.1 hhead
  obtain ⟨hlength, hvalue, hlooks⟩ := of_decide_eq_true hholds
  obtain ⟨y, rfl⟩ := List.length_eq_one_iff.1 hlength
  obtain rfl : y = x := by simpa using hx
  exact ⟨tree, [y], y, Except.toOption_eq_some_iff.1 htree,
    Except.toOption_eq_some_iff.1 hdirectives, rfl, hvalue, hlooks⟩

end Engine

end DocQuery
