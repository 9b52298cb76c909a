/-
The history of the work on a document.

* `Event` — a directive whose turn it is, what it finds and what becomes of it;
* `Workshop.rounds`, `Workshop.history` — the events of the whole work, round by round;
* `Trail` — events that follow from one another, with the directives that are not settled yet;
* `trail_history` — the work is such a trail, at whose end every directive is settled;
* `rounds_length_le`, `solve_of_le` — there are no more rounds than directives, and no more fuel is
  of use;
* `exists_circle_of_circular` — directives fail as circular only where all of them wait.

Design notes: the events say the same as the loops of the work, but keep what the loops throw away.
That a directive is settled once is a count that every step of a trail keeps: those that are settled
and those that are not are together the same at its start and at its end.
-/
import DocQuery.Directive.Apply
import DocQuery.Proofs.Directive.Detection

namespace DocQuery

open Workshop (State)

/-- What becomes of a directive when it is its turn. -/
inductive Fate where
  /-- what its action gave has been written, or its failure -/
  | written
  /-- it came across a place that another one is still to change, and waits -/
  | deferred
  /-- its cell is no part of the document any more -/
  | skipped
  /-- it has failed as one of those that wait for one another -/
  | circular
deriving DecidableEq, Repr

/-- A directive whose turn it is, those that are not settled besides it, and what it finds. -/
structure Event where
  directive : Directive
  others : List Directive
  before : State
  fate : Fate

namespace Event

/-- What the action of the directive gives. -/
def computed (w : Workshop) (e : Event) : Traced Value :=
  e.directive.action.compute (w.context e.before.draft)

/-- Whether the action comes across a place that another directive is still to change. -/
def meetsOthers (w : Workshop) (e : Event) : Bool :=
  (e.computed w).touches (pendingPaths w e.before.draft e.others)

/-- The state after an event. -/
def after (w : Workshop) (e : Event) : State :=
  match e.fate with
  | .written => e.before.write w e.directive (e.computed w).outcome
  | .circular =>
    e.before.write w e.directive (.error (Workshop.circularity e.before.draft e.directive))
  | .deferred | .skipped => e.before

/-- The fault that an event reports. -/
def fault? (w : Workshop) (e : Event) : Option Fault :=
  match e.fate with
  | .written => (e.before.draft.write w e.directive (e.computed w).outcome).2
  | .circular =>
    (e.before.draft.write w e.directive
      (.error (Workshop.circularity e.before.draft e.directive))).2
  | .deferred | .skipped => none

/-- Whether the directive is settled by an event. -/
def settles (e : Event) : Bool := e.fate != .deferred

/-- The directives that are not settled after an event. -/
def unsettled (e : Event) : List Directive :=
  if e.settles then e.others else e.directive :: e.others

/-- Whether an event has the reasons that its kind demands. -/
def IsFounded (w : Workshop) (e : Event) : Prop :=
  match e.fate with
  | .written => e.before.draft.isAttached e.directive.cell ∧ ¬ e.meetsOthers w
  | .deferred => e.before.draft.isAttached e.directive.cell ∧ e.meetsOthers w
  | .skipped => ¬ e.before.draft.isAttached e.directive.cell
  | .circular => e.before.draft.isAttached e.directive.cell

end Event

/-- The directives that events settle, in their order. -/
def settled (events : List Event) : List Directive :=
  (events.filter Event.settles).map (·.directive)

/-- The directives that wait after the events of a round. -/
def waitingAfter (events : List Event) : List Directive :=
  (events.filter fun e => !e.settles).map (·.directive)

/-- The state after events. -/
def stateAfter (w : Workshop) (s : State) (events : List Event) : State :=
  events.foldl (fun _ e => e.after w) s

/-- Events that lead from the state `s`, in which the directives `ds` are not settled, to the state
`t`, in which `es` are not. -/
inductive Trail (w : Workshop) : State → List Directive → List Event → State → List Directive → Prop
  | done {s : State} {ds es : List Directive} : ds.Perm es → Trail w s ds [] s es
  | step {e : Event} {events : List Event} {t : State} {ds es : List Directive} :
    (e.directive :: e.others).Perm ds → e.IsFounded w →
      Trail w (e.after w) e.unsettled events t es → Trail w e.before ds (e :: events) t es

namespace Workshop

/-- What becomes of a directive whose turn it is in the state `s`, with `others` not settled. -/
def fateOf (w : Workshop) (s : State) (others : List Directive) (x : Directive) : Fate :=
  if s.draft.isAttached x.cell then
    if (x.action.compute (w.context s.draft)).touches (pendingPaths w s.draft others) then .deferred
    else .written
  else .skipped

/-- The event of a directive whose turn it is. -/
def attempt (w : Workshop) (s : State) (others : List Directive) (x : Directive) : Event :=
  ⟨x, others, s, w.fateOf s others x⟩

/-- The events of directives that are tried one after the other, with those in `deferred` waiting
already. -/
def attempts (w : Workshop) (s : State) (deferred : List Directive) : List Directive → List Event
  | [] => []
  | x :: rest =>
    let e := w.attempt s (deferred ++ rest) x
    e :: w.attempts (e.after w) (if e.settles then deferred else deferred ++ [x]) rest

/-- The events of directives that fail because they wait for one another. -/
def failures (w : Workshop) (s : State) : List Directive → List Event
  | [] => []
  | x :: rest =>
    let e : Event := ⟨x, rest, s, if s.draft.isAttached x.cell then .circular else .skipped⟩
    e :: w.failures (e.after w) rest

/-- The events of the work, round by round. -/
def rounds (w : Workshop) : (fuel : Nat) → State → List Directive → List (List Event)
  | 0, _, _ => []
  | _ + 1, _, [] => []
  | fuel + 1, s, x :: rest =>
    let events := w.attempts s [] (x :: rest)
    let waiting := waitingAfter events
    if waiting.length = (x :: rest).length then
      [events ++ w.failures (stateAfter w s events) waiting]
    else events :: w.rounds fuel (stateAfter w s events) waiting

/-- The events of the work on a document with the given directives. -/
def history (w : Workshop) (s : State) (directives : List Directive) : List Event :=
  (w.rounds directives.length s directives).flatten

end Workshop

/-! ### Trails -/

/-- The parts of a string make a text. -/
theorem Action.compute_interpolate {c : Context} {parts : List Part} {v : Value}
    (h : ((Action.interpolate parts).compute c).outcome = .ok v) : ∃ text, v = .text text := by
  have hcompute : (Action.interpolate parts).compute c =
      Traced.bind (joinParts c parts) fun texts =>
        Traced.ofExcept (.ok (.text (String.join texts))) :=
    rfl
  rw [hcompute, Traced.bind] at h
  split at h
  · simp at h
  · exact ⟨_, (Except.ok.inj h).symm⟩

theorem Event.faults_after (w : Workshop) (e : Event) :
    (e.after w).faults = e.before.faults ++ (e.fault? w).toList := by
  rcases e with ⟨x, others, s, fate⟩
  cases fate
  · rfl
  · simp [Event.after, Event.fault?]
  · simp [Event.after, Event.fault?]
  · rfl

/-- What does not settle its directive puts it off. -/
theorem Event.fate_of_not_settles {e : Event} (h : e.settles = false) : e.fate = .deferred := by
  rcases e with ⟨x, others, s, fate⟩
  cases fate with
  | deferred => rfl
  | written => simp [settles] at h
  | skipped => simp [settles] at h
  | circular => simp [settles] at h

theorem Event.after_of_not_settles (w : Workshop) {e : Event} (h : e.settles = false) :
    e.after w = e.before := by
  rw [after, fate_of_not_settles h]

/-- An event settles its directive or leaves it, and does not touch the others. -/
theorem Event.settled_append_unsettled (e : Event) :
    (settled [e] ++ e.unsettled).Perm (e.directive :: e.others) := by
  rcases h : e.settles
  · simp [settled, Event.unsettled, h]
  · simp [settled, Event.unsettled, h]

theorem settled_append (events more : List Event) :
    settled (events ++ more) = settled events ++ settled more := by
  simp [settled]

namespace Trail

variable {w : Workshop} {s t u : State} {ds es fs : List Directive} {events more : List Event}

theorem of_perm (h : Trail w s ds events t es) (hp : ds.Perm fs) : Trail w s fs events t es := by
  cases h with
  | done hds => exact .done (hp.symm.trans hds)
  | step hds hf ht => exact .step (hds.trans hp) hf ht

theorem append (h : Trail w s ds events t es) (h' : Trail w t es more u fs) :
    Trail w s ds (events ++ more) u fs := by
  induction h with
  | done hds => exact h'.of_perm hds.symm
  | step hds hf _ ih => exact .step hds hf (ih h')

theorem state_eq (h : Trail w s ds events t es) : t = stateAfter w s events := by
  induction h with
  | done _ => rfl
  | step _ _ _ ih => rw [ih]; rfl

/-- Every step keeps the directives that are settled or not settled. -/
theorem settled_perm (h : Trail w s ds events t es) : (settled events ++ es).Perm ds := by
  induction h with
  | done hds => exact hds.symm
  | @step e events t ds es hds _ _ ih =>
    have hsplit : settled (e :: events) = settled [e] ++ settled events :=
      settled_append [e] events
    rw [hsplit, List.append_assoc]
    have hrest := ih.append_left (settled [e])
    exact hrest.trans (e.settled_append_unsettled.trans hds)

theorem faults_eq (h : Trail w s ds events t es) :
    t.faults = s.faults ++ events.filterMap (Event.fault? w) := by
  induction h with
  | done _ => simp
  | @step e events t ds es _ _ _ ih =>
    rw [ih, Event.faults_after]
    rcases hf : e.fault? w <;> simp [hf]

/-- At most the settled directives report a fault. -/
theorem length_fault_le (w : Workshop) (events : List Event) :
    (events.filterMap (Event.fault? w)).length ≤ (settled events).length := by
  induction events with
  | nil => simp [settled]
  | cons e events ih =>
    have hsplit : settled (e :: events) = settled [e] ++ settled events :=
      settled_append [e] events
    rw [hsplit, List.length_append]
    rcases hf : e.fault? w with _ | fault
    · rw [List.filterMap_cons_none hf]
      omega
    · have hsettled : (settled [e]).length = 1 := by
        have hs : e.settles = true := by
          rcases e with ⟨x, others, s, fate⟩
          cases fate <;> simp_all [Event.fault?, Event.settles]
        simp [settled, hs]
      rw [List.filterMap_cons_some hf, List.length_cons]
      omega

theorem directive_mem (h : Trail w s ds events t es) : ∀ e ∈ events, e.directive ∈ ds := by
  induction h with
  | done _ => simp
  | @step e events t ds es hp _ _ ih =>
    have hunsettled : e.unsettled ⊆ e.directive :: e.others := by
      rw [Event.unsettled]
      split
      · exact List.subset_cons_self _ _
      · exact List.Subset.refl _
    intro e' he'
    rcases List.mem_cons.1 he' with rfl | he'
    · exact hp.subset List.mem_cons_self
    · exact hp.subset (hunsettled (ih e' he'))

theorem isFounded (h : Trail w s ds events t es) : ∀ e ∈ events, e.IsFounded w := by
  induction h with
  | done _ => simp
  | step _ hf _ ih =>
    intro e he
    rcases List.mem_cons.1 he with rfl | he
    · exact hf
    · exact ih e he

end Trail

namespace Workshop

variable (w : Workshop)

theorem attempt_isFounded (s : State) (others : List Directive) (x : Directive) :
    (w.attempt s others x).IsFounded w := by
  rw [attempt, fateOf]
  split
  · rename_i hattached
    split
    · rename_i htouches
      exact ⟨hattached, htouches⟩
    · rename_i htouches
      exact ⟨hattached, htouches⟩
  · rename_i hattached
    exact hattached

/-- One turn of a round, told by its event. -/
theorem round_cons (s : State) (deferred : List Directive) (x : Directive)
    (rest : List Directive) :
    w.round s deferred (x :: rest) =
      w.round ((w.attempt s (deferred ++ rest) x).after w)
        (if (w.attempt s (deferred ++ rest) x).settles then deferred else deferred ++ [x])
        rest := by
  rw [round, attempt, fateOf]
  split
  · simp only
    split
    · rfl
    · rfl
  · rfl

theorem attempts_cons (s : State) (deferred : List Directive) (x : Directive)
    (rest : List Directive) :
    w.attempts s deferred (x :: rest) =
      w.attempt s (deferred ++ rest) x ::
        w.attempts ((w.attempt s (deferred ++ rest) x).after w)
          (if (w.attempt s (deferred ++ rest) x).settles then deferred else deferred ++ [x]) rest :=
  rfl

/-- Of a directive that does not settle, the others wait behind those before it. -/
theorem unsettled_attempt_perm (s : State) (deferred : List Directive) (x : Directive)
    (rest : List Directive) :
    ((if (w.attempt s (deferred ++ rest) x).settles then deferred else deferred ++ [x]) ++
      rest).Perm (w.attempt s (deferred ++ rest) x).unsettled := by
  rw [Event.unsettled]
  split
  · exact List.Perm.refl _
  · rw [List.append_assoc]
    exact List.perm_middle

/-- The events of a round lead from those that wait before it to those that wait after it. -/
theorem trail_attempts (s : State) (deferred directives : List Directive) :
    Trail w s (deferred ++ directives) (w.attempts s deferred directives)
      (w.round s deferred directives).1 (w.round s deferred directives).2 := by
  induction directives generalizing s deferred with
  | nil =>
    rw [List.append_nil]
    exact .done (List.Perm.refl _)
  | cons x rest ih =>
    rw [attempts_cons, round_cons]
    refine .step (List.perm_middle.symm) (w.attempt_isFounded s _ x) ?_
    exact (ih _ _).of_perm (w.unsettled_attempt_perm s deferred x rest)

/-- Those that wait after a round are those that its events do not settle. -/
theorem round_deferred (s : State) (deferred directives : List Directive) :
    (w.round s deferred directives).2 =
      deferred ++ waitingAfter (w.attempts s deferred directives) := by
  induction directives generalizing s deferred with
  | nil => simp [round, attempts, waitingAfter]
  | cons x rest ih =>
    rw [round_cons, ih, attempts_cons]
    rcases hs : (w.attempt s (deferred ++ rest) x).settles
    · have hdirective : (w.attempt s (deferred ++ rest) x).directive = x := rfl
      simp [waitingAfter, hs, hdirective]
    · simp [waitingAfter, hs]

theorem round_state (s : State) (deferred directives : List Directive) :
    (w.round s deferred directives).1 = stateAfter w s (w.attempts s deferred directives) :=
  (w.trail_attempts s deferred directives).state_eq

theorem trail_failures (s : State) (directives : List Directive) :
    Trail w s directives (w.failures s directives) (w.failAll s directives) [] := by
  induction directives generalizing s with
  | nil => exact .done (List.Perm.refl _)
  | cons x rest ih =>
    rw [failAll, failures]
    split
    · rename_i hattached
      exact .step (e := ⟨x, rest, s, .circular⟩) (List.Perm.refl _) hattached (ih _)
    · rename_i hattached
      exact .step (e := ⟨x, rest, s, .skipped⟩) (List.Perm.refl _) hattached (ih _)

theorem attempts_length (s : State) (deferred directives : List Directive) :
    (w.attempts s deferred directives).length = directives.length := by
  induction directives generalizing s deferred with
  | nil => rfl
  | cons x rest ih => rw [attempts_cons, List.length_cons, ih, List.length_cons]

theorem waitingAfter_length_le (events : List Event) :
    (waitingAfter events).length ≤ events.length := by
  rw [waitingAfter, List.length_map]
  exact List.length_filter_le _ _

/-- One round of the work, told by its events. -/
theorem solve_cons (fuel : Nat) (s : State) (x : Directive) (rest : List Directive) :
    w.solve (fuel + 1) s (x :: rest) =
      let events := w.attempts s [] (x :: rest)
      if (waitingAfter events).length = (x :: rest).length then
        w.failAll (stateAfter w s events) (waitingAfter events)
      else w.solve fuel (stateAfter w s events) (waitingAfter events) := by
  rw [solve]
  · simp only [round_state, round_deferred, List.nil_append]
  · simp

/-- The work is done after as many rounds as there are directives. -/
theorem trail_rounds {fuel : Nat} {directives : List Directive}
    (hfuel : directives.length ≤ fuel) (s : State) :
    Trail w s directives (w.rounds fuel s directives).flatten (w.solve fuel s directives) [] := by
  induction fuel generalizing s directives with
  | zero =>
    have hnil : directives = [] := List.eq_nil_of_length_eq_zero (by omega)
    subst hnil
    exact .done (List.Perm.refl _)
  | succ fuel ih =>
    rcases directives with _ | ⟨x, rest⟩
    · exact .done (List.Perm.refl _)
    · have hround := w.trail_attempts s [] (x :: rest)
      simp only [round_state, round_deferred, List.nil_append] at hround
      rw [solve_cons, rounds]
      simp only
      split
      · rw [List.flatten_singleton]
        exact hround.append (w.trail_failures _ _)
      · -- a round without a circle leaves fewer directives than there were
        rename_i hprogress
        rw [List.flatten_cons]
        refine hround.append (ih ?_ _)
        have hle := waitingAfter_length_le (w.attempts s [] (x :: rest))
        rw [attempts_length] at hle
        rw [List.length_cons] at hfuel hle hprogress
        omega

/-- There are no more rounds than directives. -/
theorem rounds_length_le (fuel : Nat) (s : State) (directives : List Directive) :
    (w.rounds fuel s directives).length ≤ directives.length := by
  induction fuel generalizing s directives with
  | zero => exact Nat.zero_le _
  | succ fuel ih =>
    rcases directives with _ | ⟨x, rest⟩
    · exact Nat.zero_le _
    · rw [rounds, List.length_cons]
      split
      · simp
      · rename_i hprogress
        have hle := waitingAfter_length_le (w.attempts s [] (x :: rest))
        rw [attempts_length] at hle
        have hrest := ih (stateAfter w s (w.attempts s [] (x :: rest)))
          (waitingAfter (w.attempts s [] (x :: rest)))
        rw [List.length_cons] at hle ⊢
        omega

/-- More fuel than directives is of no use. -/
theorem solve_of_le {fuel : Nat} {directives : List Directive}
    (hfuel : directives.length ≤ fuel) (s : State) :
    w.solve fuel s directives = w.solve directives.length s directives := by
  -- the right side takes less fuel too, so the induction needs all smaller amounts
  induction fuel using Nat.strongRecOn generalizing s directives with
  | _ fuel ih =>
    rcases directives with _ | ⟨x, rest⟩
    · rcases fuel with _ | fuel <;> rfl
    · rcases fuel with _ | fuel
      · simp at hfuel
      · rw [List.length_cons, solve_cons, solve_cons]
        simp only
        split
        · rfl
        · rename_i hprogress
          have hle := waitingAfter_length_le (w.attempts s [] (x :: rest))
          rw [attempts_length] at hle
          rw [List.length_cons] at hle hprogress hfuel
          rw [ih fuel (by omega) (by omega), ih rest.length (by omega) (by omega)]

/-! ### Circles -/

theorem touches_pendingPaths_iff {α : Type} {computed : Traced α} {draft : Draft}
    {directives : List Directive} :
    computed.touches (pendingPaths w draft directives) ↔
      ∃ y ∈ directives, computed.touches (pendingPaths w draft [y]) := by
  simp only [Traced.touches, List.any_eq_true, pendingPaths, List.mem_filterMap]
  constructor
  · rintro ⟨s, hs, p, ⟨y, hy, hp⟩, htouches⟩
    exact ⟨y, hy, s, hs, p, ⟨y, List.mem_singleton_self y, hp⟩, htouches⟩
  · rintro ⟨y, hy, s, hs, p, ⟨y', hy', hp⟩, htouches⟩
    obtain rfl := List.mem_singleton.1 hy'
    exact ⟨s, hs, p, ⟨y', hy, hp⟩, htouches⟩

/-- Whether each of several directives, tried in the state `s`, comes across a place that another
one of them is still to change. -/
def IsCircle (s : State) (circle : List Directive) : Prop :=
  ∀ x ∈ circle, ∃ y ∈ circle, y.cell ≠ x.cell ∧
    (x.action.compute (w.context s.draft)).touches (pendingPaths w s.draft [y])

theorem attempts_deferred {s : State} {deferred directives : List Directive}
    (h : (waitingAfter (w.attempts s deferred directives)).length = directives.length) :
    ∀ a ∈ w.attempts s deferred directives, a.fate = .deferred := by
  rw [waitingAfter, List.length_map, ← w.attempts_length s deferred directives,
    List.length_filter_eq_length_iff] at h
  intro a ha
  exact Event.fate_of_not_settles (by simpa using h a ha)

/-- Where all attempts of a round are put off, they have been made in one and the same state. -/
theorem attempts_of_deferred {s : State} {deferred directives : List Directive}
    (h : ∀ a ∈ w.attempts s deferred directives, a.fate = .deferred) :
    stateAfter w s (w.attempts s deferred directives) = s ∧
      (w.attempts s deferred directives).map (·.directive) = directives ∧
        ∀ a ∈ w.attempts s deferred directives,
          a.before = s ∧ (a.directive :: a.others).Perm (deferred ++ directives) := by
  induction directives generalizing deferred with
  | nil => simp [attempts, stateAfter]
  | cons x rest ih =>
    rw [attempts_cons] at h ⊢
    have hfirst : (w.attempt s (deferred ++ rest) x).fate = .deferred := h _ List.mem_cons_self
    have hafter : (w.attempt s (deferred ++ rest) x).after w = s := by
      rw [Event.after, hfirst]
      rfl
    have hsettles : (w.attempt s (deferred ++ rest) x).settles = false := by
      rw [Event.settles, hfirst]
      rfl
    -- what is put off leaves the state alone, so the rest is tried in it as well
    rw [hafter, hsettles] at h ⊢
    obtain ⟨hstate, hmap, hall⟩ := ih fun a ha => h a (List.mem_cons_of_mem _ ha)
    refine ⟨?_, ?_, ?_⟩
    · rw [stateAfter, List.foldl_cons, hafter]
      exact hstate
    · rw [List.map_cons]
      exact congrArg (x :: ·) hmap
    · intro a ha
      rcases List.mem_cons.1 ha with rfl | ha
      · exact ⟨rfl, List.perm_middle.symm⟩
      · obtain ⟨hbefore, hperm⟩ := hall a ha
        refine ⟨hbefore, ?_⟩
        simpa using hperm

theorem isFounded_of_mem_attempts {s : State} {deferred directives : List Directive} {a : Event}
    (h : a ∈ w.attempts s deferred directives) : a.IsFounded w ∧ a.fate ≠ .circular := by
  induction directives generalizing s deferred with
  | nil => simp [attempts] at h
  | cons x rest ih =>
    rw [attempts_cons] at h
    rcases List.mem_cons.1 h with rfl | h
    · refine ⟨w.attempt_isFounded _ _ _, ?_⟩
      rw [attempt, fateOf]
      split
      · split <;> simp
      · simp
    · exact ih h

/-- A round in which directives fail as circular: all that are not settled have been tried in one
state, each of them waits for another one, and all of them fail. -/
structure IsStuck (s : State) (waiting : List Directive) (round : List Event) : Prop where
  events : round = w.attempts s [] waiting ++ w.failures s waiting
  tried : (w.attempts s [] waiting).map (·.directive) = waiting
  deferred : ∀ a ∈ w.attempts s [] waiting,
    a.fate = .deferred ∧ a.before = s ∧ (a.directive :: a.others).Perm waiting
  circle : w.IsCircle s waiting

theorem isStuck_of_deferred {s : State} {waiting : List Directive}
    (hnodup : (waiting.map (·.cell)).Nodup)
    (h : ∀ a ∈ w.attempts s [] waiting, a.fate = .deferred) :
    w.IsStuck s waiting (w.attempts s [] waiting ++ w.failures s waiting) := by
  obtain ⟨_, hmap, hall⟩ := w.attempts_of_deferred h
  refine ⟨rfl, hmap, fun a ha => ⟨h a ha, hall a ha⟩, ?_⟩
  -- each directive is that of an attempt, and what put it off is the place of another one
  intro x hx
  rw [← hmap] at hx
  obtain ⟨a, ha, rfl⟩ := List.mem_map.1 hx
  obtain ⟨hbefore, hperm⟩ := hall a ha
  have hfounded := (w.isFounded_of_mem_attempts ha).1
  rw [Event.IsFounded, h a ha] at hfounded
  have hmeets := hfounded.2
  rw [Event.meetsOthers, Event.computed, touches_pendingPaths_iff, hbefore] at hmeets
  obtain ⟨y, hy, htouches⟩ := hmeets
  have hcells : ((a.directive :: a.others).map (·.cell)).Nodup :=
    (hperm.map _).nodup_iff.2 hnodup
  rw [List.map_cons, List.nodup_cons] at hcells
  refine ⟨y, hperm.subset (List.mem_cons_of_mem _ hy), fun heq => ?_, htouches⟩
  exact hcells.1 (heq ▸ List.mem_map_of_mem hy)

/-- Directives fail as circular only in a round in which all of them wait for one another. -/
theorem exists_isStuck_of_circular {fuel : Nat} {s : State} {directives : List Directive}
    (hnodup : (directives.map (·.cell)).Nodup) {events : List Event}
    (hround : events ∈ w.rounds fuel s directives) {e : Event} (he : e ∈ events)
    (hfate : e.fate = .circular) : ∃ t waiting, w.IsStuck t waiting events := by
  induction fuel generalizing s directives with
  | zero => simp [rounds] at hround
  | succ fuel ih =>
    rcases directives with _ | ⟨x, rest⟩
    · simp [rounds] at hround
    · rw [rounds] at hround
      split at hround
      · -- nothing has been settled, so the state is still that of the start of the round
        rename_i hstuck
        have hall := w.attempts_deferred hstuck
        obtain ⟨hstate, hmap, _⟩ := w.attempts_of_deferred hall
        have hwaiting : waitingAfter (w.attempts s [] (x :: rest)) = x :: rest := by
          have hfilter : (w.attempts s [] (x :: rest)).filter (fun e => !e.settles) =
              w.attempts s [] (x :: rest) := by
            refine List.filter_eq_self.2 fun a ha => ?_
            simp [Event.settles, hall a ha]
          rw [waitingAfter, hfilter, hmap]
        rw [hstate, hwaiting, List.mem_singleton] at hround
        subst hround
        exact ⟨s, x :: rest, w.isStuck_of_deferred hnodup hall⟩
      · rcases List.mem_cons.1 hround with rfl | hround
        · exact absurd hfate (w.isFounded_of_mem_attempts he).2
        · -- those that still wait are some of those before, with cells of their own
          refine ih ?_ hround
          have hperm := (w.trail_attempts s [] (x :: rest)).settled_perm
          rw [round_deferred, List.nil_append, List.nil_append] at hperm
          have hcells := ((hperm.map (·.cell)).nodup_iff).2 hnodup
          rw [List.map_append] at hcells
          exact (List.nodup_append.1 hcells).2.1

/-- The work on a document takes at most as many rounds as there are directives and settles each of
them once. What is put off changes nothing, and what fails as circular waited for another one. -/
theorem directives_settle_once {d : Dialect} {text : String} {source : Source}
    {directives : List Directive} (hread : readJson text = .ok source)
    (hdetect : detect d (.ofSource source) = .ok directives) :
    let start : State := ⟨.ofSource source, []⟩
    let rounds := w.rounds directives.length start directives
    let final := w.solve directives.length start directives
    w.run d (.ofSource source) = .ok final ∧
      rounds.length ≤ directives.length ∧
      (∀ fuel ≥ directives.length, w.solve fuel start directives = final) ∧
      Trail w start directives rounds.flatten final [] ∧
      (directives.map (·.cell)).Nodup ∧
      (settled rounds.flatten).Perm directives ∧
      (∀ e ∈ rounds.flatten, e.IsFounded w ∧
        (e.settles = false → e.after w = e.before ∧ e.fault? w = none)) ∧
      final.faults = rounds.flatten.filterMap (Event.fault? w) ∧
      final.faults.length ≤ directives.length ∧
      ∀ round ∈ rounds, ∀ e ∈ round, e.fate = .circular →
        ∃ s waiting, w.IsStuck s waiting round := by
  intro start rounds final
  have htree := Draft.isTree_ofSource (readJson_namesDiffer hread)
  have hnodup := detect_cells_nodup htree hdetect
  have htrail : Trail w start directives rounds.flatten final [] :=
    w.trail_rounds (Nat.le_refl _) start
  have hsettled : (settled rounds.flatten).Perm directives := by
    have hperm := htrail.settled_perm
    rwa [List.append_nil] at hperm
  have hfaults : final.faults = rounds.flatten.filterMap (Event.fault? w) := by
    have heq := htrail.faults_eq
    rwa [List.nil_append] at heq
  refine ⟨?_, w.rounds_length_le _ _ _, fun fuel hfuel => w.solve_of_le hfuel start, htrail, hnodup,
    hsettled, ?_, hfaults, ?_, ?_⟩
  · rw [run, hdetect]
    rfl
  · intro e he
    refine ⟨htrail.isFounded e he, fun hsettles => ?_⟩
    refine ⟨Event.after_of_not_settles w hsettles, ?_⟩
    rw [Event.fault?, Event.fate_of_not_settles hsettles]
  · rw [hfaults, ← hsettled.length_eq]
    exact Trail.length_fault_le w _
  · intro round hround e he hfate
    exact w.exists_isStuck_of_circular hnodup hround he hfate

theorem directives_settle_once_ring :
    ∃ source directives,
      readJson "\x7b\"A\":\"$value(B)\",\"B\":\"$value(A)\",\"C\":\"$value(1)\"\x7d" = .ok source ∧
        detect .standard (.ofSource source) = .ok directives ∧
          directives.length = 3 ∧
            let w : Workshop := ⟨"D", [], .standard, .midnight ⟨2024, 1, 1⟩⟩
            let rounds := w.rounds directives.length ⟨.ofSource source, []⟩ directives
            rounds.length ≤ 3 ∧ (settled rounds.flatten).Perm directives := by
  have hlength :
      ((readJson "\x7b\"A\":\"$value(B)\",\"B\":\"$value(A)\",\"C\":\"$value(1)\"\x7d").toOption.bind
        fun source => (detect .standard (.ofSource source)).toOption.map List.length) = some 3 := by
    decide +kernel
  obtain ⟨source, hsource, hfound⟩ := Option.bind_eq_some_iff.1 hlength
  obtain ⟨directives, hdirectives, hthree⟩ := Option.map_eq_some_iff.1 hfound
  have hread := Except.toOption_eq_some_iff.1 hsource
  have hdetect := Except.toOption_eq_some_iff.1 hdirectives
  obtain ⟨_, hrounds, _, _, _, hsettled, _⟩ :=
    directives_settle_once ⟨"D", [], .standard, .midnight ⟨2024, 1, 1⟩⟩ hread hdetect
  exact ⟨source, directives, hread, hdetect, hthree, hthree ▸ hrounds, hsettled⟩

end Workshop

end DocQuery
