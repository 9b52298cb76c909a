/-
The document that formulas are evaluated in, kept from one evaluation to the next.

* `Workshop.Bench` — the state of the work with a document that has been kept;
* `Workshop.keepingSolve` — the work with such a document: every evaluation keeps it, every write
  drops it;
* `Bench.IsCurrent` — what has been kept is what the draft is now;
* `Workshop.evaluations_are_current` — every evaluation is in the document that the writes before it
  have made, beside the places of those that are not written yet.

Design notes: the work as it is defined freezes the draft anew for every evaluation. Here it is done
with a document that is only made where none has been kept, and every evaluation is noted. Both do
the same, since an evaluation that is put off writes nothing. The places of other directives are
looked up in the draft at each evaluation, so they follow the entries that earlier writes move.
-/
import DocQuery.Proofs.Directive.Prospect
import DocQuery.Proofs.Directive.Shape

namespace DocQuery

open Workshop (State)

namespace Workshop

/-- The document that a draft has become so far. -/
def documentOf (w : Workshop) (draft : Draft) : Document :=
  .ofParents ⟨w.id, draft.freeze w.id⟩ w.parents

/-- The state of the work, and the document of the last evaluation if nothing has been written since
then. -/
structure Bench where
  state : State
  snapshot : Option Document

/-- A directive whose turn it is, those that are still to be written besides it, and the bench that
it finds. -/
structure Attempt where
  directive : Directive
  others : List Directive
  bench : Bench

namespace Bench

/-- The document of an evaluation: the one that has been kept, or else that of the draft. -/
def document (w : Workshop) (b : Bench) : Document :=
  b.snapshot.getD (w.documentOf b.state.draft)

/-- The context of an evaluation. -/
def context (w : Workshop) (b : Bench) : Context :=
  ⟨b.document w, w.options, w.now, []⟩

/-- The bench after an evaluation. -/
def keep (w : Workshop) (b : Bench) : Bench :=
  ⟨b.state, some (b.document w)⟩

/-- The bench after a write. -/
def write (w : Workshop) (b : Bench) (x : Directive) (outcome : Except Fault Value) : Bench :=
  ⟨b.state.write w x outcome, none⟩

end Bench

namespace Attempt

/-- What the evaluation gives. -/
def computed (w : Workshop) (a : Attempt) : Traced Value :=
  a.directive.action.compute (a.bench.context w)

/-- The places that count as not settled for the evaluation. -/
def pending (w : Workshop) (a : Attempt) : List Path :=
  pendingPaths w a.bench.state.draft a.others

/-- Whether the evaluation is put off, since it comes across such a place. -/
def waits (w : Workshop) (a : Attempt) : Bool :=
  (a.computed w).touches (a.pending w)

/-- The bench after an attempt. -/
def after (w : Workshop) (a : Attempt) : Bench :=
  if a.waits w then a.bench.keep w
  else (a.bench.keep w).write w a.directive (a.computed w).outcome

/-- What an attempt makes of a draft: what it writes, whether it has succeeded or failed. -/
def writeOn (w : Workshop) (draft : Draft) (a : Attempt) : Draft :=
  if a.waits w then draft else (draft.write w a.directive (a.computed w).outcome).1

end Attempt

/-- A round with a document that is kept, and the evaluations in it. -/
def keepingRound (w : Workshop) (b : Bench) (deferred : List Directive) :
    List Directive → Bench × List Directive × List Attempt
  | [] => (b, deferred, [])
  | x :: rest =>
    if b.state.draft.isAttached x.cell then
      let a : Attempt := ⟨x, deferred ++ rest, b⟩
      let (last, waiting, attempts) :=
        w.keepingRound (a.after w) (if a.waits w then deferred ++ [x] else deferred) rest
      (last, waiting, a :: attempts)
    else
      w.keepingRound b deferred rest

/-- The work with a document that is kept, and the evaluations in it. Those that fail because they
wait for one another are not evaluated any more. -/
def keepingSolve (w : Workshop) : (fuel : Nat) → Bench → List Directive → State × List Attempt
  | 0, b, _ => (b.state, [])
  | _ + 1, b, [] => (b.state, [])
  | fuel + 1, b, waiting =>
    let (next, deferred, attempts) := w.keepingRound b [] waiting
    if deferred.length = waiting.length then (w.failAll next.state deferred, attempts)
    else
      let (last, more) := w.keepingSolve fuel next deferred
      (last, attempts ++ more)

/-! ### What is kept is current -/

/-- Whether the document that has been kept is that of the draft as it is. -/
def Bench.IsCurrent (w : Workshop) (b : Bench) : Prop :=
  ∀ d ∈ b.snapshot, d = w.documentOf b.state.draft

variable {w : Workshop} {n : Nat} {b : Bench} {a : Attempt}

namespace Bench.IsCurrent

theorem document_eq (h : b.IsCurrent w) : b.document w = w.documentOf b.state.draft := by
  rcases b with ⟨s, _ | d⟩
  · rfl
  · exact h d rfl

theorem context_eq (h : b.IsCurrent w) : b.context w = w.context b.state.draft := by
  rw [Bench.context, h.document_eq]
  rfl

theorem computed_eq (h : a.bench.IsCurrent w) :
    a.computed w = a.directive.action.compute (w.context a.bench.state.draft) := by
  rw [Attempt.computed, h.context_eq]

/-- An attempt leaves what is current: it has kept the document and written nothing, or it has
written and keeps none. -/
theorem after (h : a.bench.IsCurrent w) : (a.after w).IsCurrent w := by
  rw [Attempt.after]
  split
  · intro d hd
    obtain rfl := Option.some.inj hd
    exact h.document_eq
  · intro d hd
    cases hd

end Bench.IsCurrent

/-! ### The work is the same -/

namespace Attempt

/-- An attempt as an event of the work. -/
def event (w : Workshop) (a : Attempt) : Event :=
  ⟨a.directive, a.others, a.bench.state, if a.waits w then .deferred else .written⟩

theorem settles_event (w : Workshop) (a : Attempt) : (a.event w).settles = !a.waits w := by
  rw [event, Event.settles]
  rcases a.waits w <;> rfl

theorem after_event (h : a.bench.IsCurrent w) : (a.event w).after w = (a.after w).state := by
  rw [event, Attempt.after, Event.after]
  rcases a.waits w
  · rw [h.computed_eq]
    rfl
  · rfl

end Attempt

/-- The attempt of a directive in its place is the event of it. -/
theorem event_eq_attempt (others : List Directive) {x : Directive} (h : b.IsCurrent w)
    (hattached : b.state.draft.isAttached x.cell) :
    (⟨x, others, b⟩ : Attempt).event w = w.attempt b.state others x := by
  have hwaits : (⟨x, others, b⟩ : Attempt).waits w =
      (x.action.compute (w.context b.state.draft)).touches
        (pendingPaths w b.state.draft others) := by
    rw [Attempt.waits, Bench.IsCurrent.computed_eq (a := ⟨x, others, b⟩) h]
    rfl
  rw [Attempt.event, attempt, fateOf, if_pos hattached, hwaits]

/-- A round with a document that is kept leads where the round leads, and its evaluations are the
events of the round. -/
theorem keepingRound_spec (deferred : List Directive) {directives : List Directive}
    (h : b.IsCurrent w) (hs : b.state.IsSound n (deferred ++ directives)) :
    ∃ last waiting attempts,
      w.keepingRound b deferred directives = (last, waiting, attempts) ∧
        w.round b.state deferred directives = (last.state, waiting) ∧ last.IsCurrent w ∧
          (∀ a ∈ attempts, a.bench.IsCurrent w) ∧
            attempts.map (Attempt.event w) = w.attempts b.state deferred directives := by
  induction directives generalizing b deferred with
  | nil => exact ⟨b, deferred, [], rfl, rfl, h, by simp, rfl⟩
  | cons x rest ih =>
    have hattached : b.state.draft.isAttached x.cell := (hs.fits x (by simp)).isAttached
    have hevent := event_eq_attempt (deferred ++ rest) h hattached
    generalize ha : (⟨x, deferred ++ rest, b⟩ : Attempt) = a at hevent
    have hbench : a.bench = b := by rw [← ha]
    have hcurrent : a.bench.IsCurrent w := hbench ▸ h
    have hafter := Attempt.after_event hcurrent
    have hsettles := a.settles_event w
    rw [hevent] at hafter hsettles
    have hdeferred : (if (w.attempt b.state (deferred ++ rest) x).settles then deferred
        else deferred ++ [x]) = if a.waits w then deferred ++ [x] else deferred := by
      rw [hsettles]
      rcases a.waits w <;> rfl
    -- the event of the attempt keeps the directives that are left where they are
    have hnext : (a.after w).state.IsSound n
        ((if a.waits w then deferred ++ [x] else deferred) ++ rest) := by
      have hsound := (w.attempt b.state (deferred ++ rest) x).isSound_after
        (hs.of_perm List.perm_middle) (w := w)
      have hperm := (w.unsettled_attempt_perm b.state deferred x rest).symm
      rw [hafter] at hsound
      rw [hdeferred] at hperm
      exact hsound.of_perm hperm
    obtain ⟨last, waiting, attempts, hkeeping, hround, hlast, hall, hmap⟩ :=
      ih _ hcurrent.after hnext
    refine ⟨last, waiting, a :: attempts, ?_, ?_, hlast, ?_, ?_⟩
    · rw [keepingRound, if_pos hattached, ha]
      simp only [hkeeping]
    · rw [round_cons, hafter, hdeferred]
      exact hround
    · intro a' ha'
      rcases List.mem_cons.1 ha' with rfl | ha'
      · exact hcurrent
      · exact hall a' ha'
    · rw [List.map_cons, attempts_cons, hevent, hafter, hdeferred, hmap]

/-- The evaluations lead from the directives that wait at first to a state in which some of them may
wait still, and the work ends as it does without a document that is kept. -/
theorem keepingSolve_spec (fuel : Nat) {directives : List Directive} (h : b.IsCurrent w)
    (hs : b.state.IsSound n directives) :
    ∃ attempts, w.keepingSolve fuel b directives = (w.solve fuel b.state directives, attempts) ∧
      (∀ a ∈ attempts, a.bench.IsCurrent w) ∧
        ∃ t waiting, Trail w b.state directives (attempts.map (Attempt.event w)) t waiting := by
  induction fuel generalizing b directives with
  | zero => exact ⟨[], rfl, by simp, b.state, directives, .done (List.Perm.refl _)⟩
  | succ fuel ih =>
    rcases directives with _ | ⟨x, rest⟩
    · exact ⟨[], rfl, by simp, b.state, [], .done (List.Perm.refl _)⟩
    · obtain ⟨last, waiting, attempts, hkeeping, hround, hlast, hall, hmap⟩ :=
        keepingRound_spec [] h hs
      have htrail := w.trail_attempts b.state [] (x :: rest)
      rw [hround, ← hmap, List.nil_append] at htrail
      have hsolve : w.solve (fuel + 1) b.state (x :: rest) =
          if waiting.length = (x :: rest).length then w.failAll last.state waiting
          else w.solve fuel last.state waiting := by
        rw [solve]
        · rw [hround]
        · simp
      rw [hsolve, keepingSolve]
      · simp only [hkeeping]
        split
        · exact ⟨attempts, rfl, hall, _, _, htrail⟩
        · obtain ⟨more, hmore, hallmore, t, es, htrailmore⟩ :=
            ih hlast (htrail.isSound hs).1
          refine ⟨attempts ++ more, by rw [hmore], ?_, t, es, ?_⟩
          · intro a ha
            rcases List.mem_append.1 ha with ha | ha
            · exact hall a ha
            · exact hallmore a ha
          · rw [List.map_append]
            exact htrail.append htrailmore
      · simp

end Workshop

/-! ### What an evaluation finds -/

open Workshop (Attempt)

variable {w : Workshop} {n : Nat} {s t : State} {ds es : List Directive}

/-- The events before one of a trail lead to it. -/
theorem Trail.before_of_append {e : Event} {earlier later : List Event}
    (h : Trail w s ds (earlier ++ e :: later) t es) :
    Trail w s ds earlier e.before (e.directive :: e.others) := by
  induction earlier generalizing s ds with
  | nil =>
    cases h with
    | step hp _ _ => exact .done hp.symm
  | cons e' earlier ih =>
    cases h with
    | step hp hfounded hrest => exact .step hp hfounded (ih hrest)

/-- Evaluations leave the draft that what they write makes. -/
theorem Trail.draft_eq_foldl {attempts : List Attempt}
    (h : Trail w s ds (attempts.map (Attempt.event w)) t es)
    (hcurrent : ∀ a ∈ attempts, a.bench.IsCurrent w) :
    t.draft = attempts.foldl (Attempt.writeOn w) s.draft := by
  induction attempts generalizing s ds with
  | nil =>
    cases h
    rfl
  | cons a attempts ih =>
    rw [List.map_cons] at h
    cases h with
    | step _ _ hrest =>
      have hdraft : ((a.event w).after w).draft = a.writeOn w (a.event w).before.draft := by
        rw [Attempt.after_event (hcurrent a List.mem_cons_self), Attempt.after, Attempt.writeOn]
        split <;> rfl
      rw [List.foldl_cons, ← hdraft]
      exact ih hrest fun a' ha' => hcurrent a' (List.mem_cons_of_mem _ ha')

/-- The directives that evaluations settle are those that are written. -/
theorem settled_map_event (w : Workshop) (attempts : List Attempt) :
    settled (attempts.map (Attempt.event w)) =
      (attempts.filter fun a => !a.waits w).map (·.directive) := by
  rw [settled, List.filter_map, List.map_map]
  congr 1
  exact List.filter_congr fun a _ => Attempt.settles_event w a

/-- Whether `p` is the place that a directive is going to change: keys lead to its string in the
draft, and in the document that the draft has become this string stands there. -/
def Directive.ChangesNow (w : Workshop) (d : Draft) (x : Directive) (p : Path) : Prop :=
  ∃ keys t, d.Leads d.root keys x.cell ∧ x.action.changes ⟨w.id, keys⟩ = some p ∧
    (d.freeze w.id).at? keys = some (.scalar (.at ⟨w.id, keys⟩) ⟨t, true⟩)

/-- A directive that fits has a place to change. -/
theorem Directive.Fits.exists_changes {d : Draft} {x : Directive} {keys : List Key}
    (h : x.Fits n d) (hleads : d.Leads d.root keys x.cell) (htree : d.IsTree n) :
    ∃ p, x.action.changes ⟨w.id, keys⟩ = some p := by
  have hparent : x.action.grows → ∃ p, Path.parent? ⟨w.id, keys⟩ = some p := by
    intro hgrows
    rcases keys.eq_nil_or_concat' with rfl | ⟨keys, key, rfl⟩
    · exact absurd (htree.leads_target hleads (.here d.root)) (h.off_root hgrows)
    · exact ⟨⟨w.id, keys⟩, by simp [Path.parent?]⟩
  rcases haction : x.action with f | f | f | parts
  · exact hparent (by rw [haction]; rfl)
  · exact hparent (by rw [haction]; rfl)
  · exact ⟨_, rfl⟩
  · exact ⟨_, rfl⟩

/-- The places of directives that fit are those that they change in the draft as it is, one for each
of them. -/
theorem forall₂_pendingPaths {d : Draft} (htree : d.IsTree n) (hfits : ∀ x ∈ ds, x.Fits n d) :
    List.Forall₂ (Directive.ChangesNow w d) ds (pendingPaths w d ds) := by
  induction ds with
  | nil => exact .nil
  | cons x ds ih =>
    have hx := hfits x List.mem_cons_self
    obtain ⟨keys, hleads⟩ := hx.reached
    obtain ⟨text, htext⟩ := hx.text
    obtain ⟨p, hp⟩ := hx.exists_changes (w := w) hleads htree
    have hpending : pendingPaths w d (x :: ds) = p :: pendingPaths w d ds := by
      rw [pendingPaths, List.filterMap_cons_some]
      · rfl
      · rw [htree.lookup_walk_iff.2 hleads, Option.bind_some, hp]
    rw [hpending]
    refine .cons ⟨keys, text, hleads, hp, ?_⟩
      (ih fun y hy => hfits y (List.mem_cons_of_mem _ hy))
    obtain ⟨v, hv, hbecomes⟩ := htree.at?_freeze_becomes w.id hleads htext
    cases hbecomes
    exact hv

namespace Workshop

/-- The work does the same with a document that is kept between evaluations. Every evaluation in it
finds the draft that all writes before it have made, is in the document that this draft has become,
and beside it there are the directives that have not been written yet, each with the place that it
changes now. -/
theorem evaluations_are_current (w : Workshop) {d : Dialect} {text : String} {source : Source}
    {directives : List Directive} (hread : readJson text = .ok source)
    (hdetect : detect d (.ofSource source) = .ok directives) :
    ∃ final attempts,
      w.keepingSolve directives.length ⟨⟨.ofSource source, []⟩, none⟩ directives =
        (final, attempts) ∧
      w.run d (.ofSource source) = .ok final ∧
      ∀ earlier a later, attempts = earlier ++ a :: later →
        a.bench.state.draft = earlier.foldl (Attempt.writeOn w) (.ofSource source) ∧
        a.bench.document w =
          .ofParents ⟨w.id, a.bench.state.draft.freeze w.id⟩ w.parents ∧
        (a.directive :: a.others ++
          (earlier.filter fun b => !b.waits w).map (·.directive)).Perm directives ∧
        List.Forall₂ (Directive.ChangesNow w a.bench.state.draft) a.others (a.pending w) := by
  have hstart := isSound_start hread hdetect
  obtain ⟨attempts, hkeeping, hcurrent, t, waiting, htrail⟩ :=
    keepingSolve_spec (w := w) (b := ⟨⟨.ofSource source, []⟩, none⟩) directives.length
      (fun _ hd => by cases hd) hstart
  refine ⟨_, attempts, hkeeping, by rw [run, hdetect]; rfl, ?_⟩
  rintro earlier a later rfl
  rw [List.map_append, List.map_cons] at htrail
  have hbefore := htrail.before_of_append
  have hsound := (htrail.isSound hstart).2 (a.event w) (by simp)
  refine ⟨?_, ?_, ?_, ?_⟩
  · exact hbefore.draft_eq_foldl fun b hb => hcurrent b (List.mem_append_left _ hb)
  · exact (hcurrent a (by simp)).document_eq
  · have hperm := hbefore.settled_perm
    rw [settled_map_event] at hperm
    exact List.perm_append_comm.trans hperm
  · exact forall₂_pendingPaths hsound.tree fun x hx => hsound.fits x (List.mem_cons_of_mem _ hx)

/-- Two items are merged before a string whose place so moves; a string that waits leaves its
document to the next one. -/
theorem evaluations_are_current_merged :
    let text :=
      "\x7b\"V\":\"$value(A)\",\"A\":[\"$merge(B)\",\"$value(C)\"],\"B\":[1,2],\"C\":3\x7d"
    let w : Workshop := ⟨"D", [], .standard, .midnight ⟨2024, 1, 1⟩⟩
    ∃ source directives final attempts,
      readJson text = .ok source ∧ detect .standard (.ofSource source) = .ok directives ∧
        w.keepingSolve directives.length ⟨⟨.ofSource source, []⟩, none⟩ directives =
          (final, attempts) ∧
        w.run .standard (.ofSource source) = .ok final ∧
        (attempts.map fun a => (a.bench.snapshot.isSome, (a.pending w).map Path.render)) =
          [(false, ["V", "A[1]"]), (false, ["A[2]"]), (true, ["V"]), (false, [])] := by
  intro text w
  have hfound : ((readJson text).toOption.bind fun source =>
      (detect .standard (.ofSource source)).toOption.map fun directives =>
        decide (((w.keepingSolve directives.length ⟨⟨.ofSource source, []⟩, none⟩ directives).2.map
          fun a => (a.bench.snapshot.isSome, (a.pending w).map Path.render)) =
            [(false, ["V", "A[1]"]), (false, ["A[2]"]), (true, ["V"]), (false, [])])) =
        some true := by
    decide +kernel
  obtain ⟨source, hsource, hfound⟩ := Option.bind_eq_some_iff.1 hfound
  obtain ⟨directives, hdirectives, hturns⟩ := Option.map_eq_some_iff.1 hfound
  have hread := Except.toOption_eq_some_iff.1 hsource
  have hdetect := Except.toOption_eq_some_iff.1 hdirectives
  obtain ⟨final, attempts, hkeeping, hrun, -⟩ := evaluations_are_current w hread hdetect
  rw [hkeeping] at hturns
  exact ⟨source, directives, final, attempts, hread, hdetect, hkeeping, hrun,
    of_decide_eq_true hturns⟩

end Workshop

end DocQuery
