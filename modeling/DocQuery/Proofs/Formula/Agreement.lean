/-
Values that agree but for places that are still to be changed.

* `Path.LiesIn`, `Path.Meets` — whether a place lies in one of several places, or around one;
* `Node.Agrees` — two values that agree but for what lies in such places;
* `Node.Agrees.eq` — values that meet none of the places are the same;
* `Node.Agrees.search` — a search that comes across none of the places finds values that agree.

Design notes: of a list of items nothing is said from the first one on that lies in such a place,
since that item may give way to none or to several. A member may only be gone, because new members
would make the whole object such a place.
-/
import Mathlib.Data.List.Forall2
import DocQuery.Formula.Evaluate
import DocQuery.Proofs.Path.Relation

namespace DocQuery

/-! ### Places -/

namespace Path

/-- Whether a place is one of `pending` or lies inside one of them. -/
def LiesIn (pending : List Path) (p : Path) : Prop :=
  ∃ q ∈ pending, p.document = q.document ∧ q.keys <+: p.keys

/-- Whether a place is one of `pending`, or lies inside or around one of them. -/
def Meets (pending : List Path) (p : Path) : Prop :=
  ∃ q ∈ pending, p.document = q.document ∧ (q.keys <+: p.keys ∨ p.keys <+: q.keys)

variable {pending : List Path} {p : Path}

theorem LiesIn.meets (h : p.LiesIn pending) : p.Meets pending := by
  obtain ⟨q, hq, hdocument, hkeys⟩ := h
  exact ⟨q, hq, hdocument, .inl hkeys⟩

/-- What meets one of the places is inside of what meets it. -/
theorem Meets.of_child {key : Key} (h : (p.child key).Meets pending) : p.Meets pending := by
  obtain ⟨q, hq, hdocument, hkeys | hkeys⟩ := h
  · refine ⟨q, hq, hdocument, ?_⟩
    rcases List.prefix_concat_iff.1 hkeys with heq | hshort
    · right
      rw [heq]
      exact List.prefix_append _ _
    · exact .inl hshort
  · exact ⟨q, hq, hdocument, .inr ((List.prefix_append _ _).trans hkeys)⟩

end Path

/-- When a sighting depends on a place, by the keys of both. -/
theorem Sighting.reaches_iff (s : Sighting) (q : Path) :
    s.reaches q ↔ s.path.document = q.document ∧
      (q.keys <+: s.path.keys ∨ s.isWhole ∧ s.path.keys <+: q.keys) := by
  rw [and_or_left, Path.inside_iff, and_left_comm, Path.around_iff, reaches]
  cases s.path.compare q <;> simp

/-! ### Values -/

mutual

/-- Whether two values agree but for what lies in the places of `pending`. -/
inductive Node.Agrees (pending : List Path) : Node → Node → Prop
  | same (n : Node) : Node.Agrees pending n n
  | unsettled {n n' : Node} : n.path.LiesIn pending → Node.Agrees pending n n'
  | object {place : Place} {ms ms' : List (String × Node)} :
    (∀ m ∈ ms, ∃ key, m.2.path = place.path.child key) → MembersAgree pending ms ms' →
      Node.Agrees pending (.object place ms) (.object place ms')
  | array {place : Place} {ns ns' : List Node} :
    (∀ n ∈ ns, ∃ key, n.path = place.path.child key) → NodesAgree pending ns ns' →
      Node.Agrees pending (.array place ns) (.array place ns')

/-- Whether members agree, of which those in the places of `pending` may be gone. -/
inductive MembersAgree (pending : List Path) : List (String × Node) → List (String × Node) → Prop
  | nil : MembersAgree pending [] []
  | cons {name : String} {n n' : Node} {ms ms' : List (String × Node)} :
    Node.Agrees pending n n' → MembersAgree pending ms ms' →
      MembersAgree pending ((name, n) :: ms) ((name, n') :: ms')
  | gone {name : String} {n : Node} {ms ms' : List (String × Node)} : n.path.LiesIn pending →
    MembersAgree pending ms ms' → MembersAgree pending ((name, n) :: ms) ms'

/-- Whether values agree one by one, up to the first in one of the places of `pending`. -/
inductive NodesAgree (pending : List Path) : List Node → List Node → Prop
  | nil : NodesAgree pending [] []
  | cons {n n' : Node} {ns ns' : List Node} : Node.Agrees pending n n' →
    NodesAgree pending ns ns' → NodesAgree pending (n :: ns) (n' :: ns')
  | cut {n : Node} {ns ns' : List Node} : n.path.LiesIn pending → NodesAgree pending (n :: ns) ns'

end

variable {pending : List Path} {n n' : Node} {ns ns' more more' : List Node}
  {ms ms' : List (String × Node)}

mutual

/-- Values that agree and meet none of the places are the same. -/
theorem Node.Agrees.eq : {n n' : Node} → Node.Agrees pending n n' → ¬ n.path.Meets pending → n' = n
  | _, _, .same _, _ => rfl
  | _, _, .unsettled hlies, hmeets => absurd hlies.meets hmeets
  | _, _, .object hpaths h, hmeets => by
    rw [h.eq fun m hm hmeets' => ?_]
    obtain ⟨key, hkey⟩ := hpaths m hm
    exact hmeets (hkey ▸ hmeets').of_child
  | _, _, .array hpaths h, hmeets => by
    rw [h.eq fun n hn hmeets' => ?_]
    obtain ⟨key, hkey⟩ := hpaths n hn
    exact hmeets (hkey ▸ hmeets').of_child

theorem MembersAgree.eq : {ms ms' : List (String × Node)} → MembersAgree pending ms ms' →
    (∀ m ∈ ms, ¬ m.2.path.Meets pending) → ms' = ms
  | _, _, .nil, _ => rfl
  | _, _, .cons hn hms, hmeets => by
    rw [hn.eq (hmeets _ List.mem_cons_self),
      hms.eq fun m hm => hmeets m (List.mem_cons_of_mem _ hm)]
  | _, _, .gone hlies _, hmeets => absurd hlies.meets (hmeets _ List.mem_cons_self)

theorem NodesAgree.eq : {ns ns' : List Node} → NodesAgree pending ns ns' →
    (∀ n ∈ ns, ¬ n.path.Meets pending) → ns' = ns
  | _, _, .nil, _ => rfl
  | _, _, .cons hn hns, hmeets => by
    rw [hn.eq (hmeets _ List.mem_cons_self),
      hns.eq fun n hn => hmeets n (List.mem_cons_of_mem _ hn)]
  | _, _, .cut hlies, hmeets => absurd hlies.meets (hmeets _ List.mem_cons_self)

end

theorem NodesAgree.refl (pending : List Path) : (ns : List Node) → NodesAgree pending ns ns
  | [] => .nil
  | n :: ns => .cons (.same n) (refl pending ns)

theorem NodesAgree.append (h : NodesAgree pending ns ns') (h' : NodesAgree pending more more') :
    NodesAgree pending (ns ++ more) (ns' ++ more') := by
  induction ns generalizing ns' with
  | nil =>
    cases h with
    | nil => exact h'
  | cons n ns ih =>
    cases h with
    | cons hn hns => exact .cons hn (ih hns)
    | cut hlies => exact .cut hlies

/-- Values of which none lies in one of the places agree one by one. -/
theorem NodesAgree.forall₂ (h : NodesAgree pending ns ns')
    (hlies : ∀ n ∈ ns, ¬ n.path.LiesIn pending) :
    List.Forall₂ (Node.Agrees pending) ns ns' := by
  induction ns generalizing ns' with
  | nil =>
    cases h with
    | nil => exact .nil
  | cons n ns ih =>
    cases h with
    | cons hn hns => exact .cons hn (ih hns fun m hm => hlies m (List.mem_cons_of_mem n hm))
    | cut hcut => exact absurd hcut (hlies n List.mem_cons_self)

theorem nodesAgree_of_forall₂ (h : List.Forall₂ (Node.Agrees pending) ns ns') :
    NodesAgree pending ns ns' := by
  induction h with
  | nil => exact .nil
  | cons hn _ ih => exact .cons hn ih

/-! ### What lookups reach -/

/-- Whether two lookups have reached the same but for what lies in the places of `pending`. -/
inductive View.Agrees (pending : List Path) : View → View → Prop
  | absent : View.Agrees pending (.single none) (.single none)
  | single {n n' : Node} : Node.Agrees pending n n' →
    View.Agrees pending (.single (some n)) (.single (some n'))
  | unsettled {n : Node} (v' : View) : n.path.LiesIn pending →
    View.Agrees pending (.single (some n)) v'
  | many {ns ns' : List Node} : NodesAgree pending ns ns' →
    View.Agrees pending (.many ns) (.many ns')

theorem View.Agrees.refl (pending : List Path) : (v : View) → View.Agrees pending v v
  | .single none => .absent
  | .single (some n) => .single (.same n)
  | .many ns => .many (.refl pending ns)

theorem View.Agrees.toList {found found' : Option Node}
    (h : View.Agrees pending (.single found) (.single found')) :
    NodesAgree pending found.toList found'.toList := by
  cases h with
  | absent => exact .nil
  | single hn => exact .cons hn .nil
  | unsettled _ hlies => exact .cut hlies

/-- Whether none of several values lies in one of the places. -/
abbrev Clear (pending : List Path) (ns : List Node) : Prop :=
  ∀ n ∈ ns, ¬ n.path.LiesIn pending

/-- Items up to a position agree where none of them lies in one of the places. -/
theorem NodesAgree.getElem? (h : NodesAgree pending ns ns') (i : Nat)
    (hclear : Clear pending (ns.take (i + 1))) :
    View.Agrees pending (.single ns[i]?) (.single ns'[i]?) := by
  induction i generalizing ns ns' with
  | zero =>
    cases h with
    | nil => exact .absent
    | cons hn _ => exact .single hn
    | cut hcut => exact absurd hcut (hclear _ List.mem_cons_self)
  | succ i ih =>
    cases h with
    | nil => exact .absent
    | cons _ hns =>
      rw [List.getElem?_cons_succ, List.getElem?_cons_succ]
      exact ih hns fun m hm => hclear m (List.mem_cons_of_mem _ hm)
    | cut hcut => exact absurd hcut (hclear _ List.mem_cons_self)

theorem MembersAgree.lookup (h : MembersAgree pending ms ms') (name : String) :
    View.Agrees pending (.single (ms.lookup name)) (.single (ms'.lookup name)) := by
  induction ms generalizing ms' with
  | nil =>
    cases h with
    | nil => exact .absent
  | cons m ms ih =>
    cases h with
    | @cons other n n' _ ms' hn hms =>
      rw [List.lookup_cons, List.lookup_cons]
      rcases name == other
      · exact ih hms
      · exact .single hn
    | @gone other n _ _ hlies hms =>
      rw [List.lookup_cons]
      rcases name == other
      · exact ih hms
      · exact .unsettled _ hlies

namespace Node.Agrees

theorem member? (h : Node.Agrees pending n n') (hlies : ¬ n.path.LiesIn pending) (name : String) :
    View.Agrees pending (.single (n.member? name)) (.single (n'.member? name)) := by
  cases h with
  | same _ => exact .refl pending _
  | unsettled hlies' => exact absurd hlies' hlies
  | object _ h => exact h.lookup name
  | array _ _ => exact .absent

theorem items (h : Node.Agrees pending n n') (hlies : ¬ n.path.LiesIn pending) :
    NodesAgree pending (n.items?.getD []) (n'.items?.getD []) := by
  cases h with
  | same _ => exact .refl pending _
  | unsettled hlies' => exact absurd hlies' hlies
  | object _ _ => exact .nil
  | array _ h => exact h

theorem spread (h : Node.Agrees pending n n') (hlies : ¬ n.path.LiesIn pending) :
    NodesAgree pending n.spread n'.spread := by
  cases h with
  | same _ => exact .refl pending _
  | unsettled hlies' => exact absurd hlies' hlies
  | object hpaths h => exact .cons (.object hpaths h) .nil
  | array _ h => exact h

/-- Values that agree stand at one place, unless it lies in one of the places. -/
theorem path_eq (h : Node.Agrees pending n n') (hlies : ¬ n.path.LiesIn pending) :
    n'.path = n.path := by
  cases h with
  | same _ => rfl
  | unsettled hlies' => exact absurd hlies' hlies
  | object _ _ => rfl
  | array _ _ => rfl

end Node.Agrees

theorem mem_surroundedAll {m : Node} :
    m ∈ Node.surroundedAll ns ↔ m ∈ ns ∨ m ∈ ns.flatMap Node.surrounded := by
  induction ns with
  | nil => simp [Node.surroundedAll]
  | cons n ns ih =>
    rw [Node.surroundedAll, List.mem_cons, List.mem_append, ih, List.mem_cons, List.flatMap_cons,
      List.mem_append]
    tauto

mutual

/-- A search that comes across none of the places finds values that agree. -/
theorem Node.Agrees.search (name : String) : {n n' : Node} → Node.Agrees pending n n' →
    ¬ n.path.LiesIn pending → Clear pending n.surrounded →
      NodesAgree pending (n.search name) (n'.search name)
  | _, _, .same _, _, _ => .refl pending _
  | _, _, .unsettled hlies', hlies, _ => absurd hlies' hlies
  | _, _, .object hpaths h, hlies, _ => by
    rw [Node.search, Node.search]
    exact ((Node.Agrees.object hpaths h).member? hlies name).toList
  | _, _, .array _ h, _, hclear => by
    rw [Node.search, Node.search]
    rw [Node.surrounded] at hclear
    exact h.searchAll name hclear

theorem NodesAgree.searchAll (name : String) : {ns ns' : List Node} → NodesAgree pending ns ns' →
    Clear pending (Node.surroundedAll ns) →
      NodesAgree pending (Node.searchAll name ns) (Node.searchAll name ns')
  | _, _, .nil, _ => .nil
  | _, _, .cons hn hns, hclear => by
    rw [Node.searchAll, Node.searchAll]
    rw [Node.surroundedAll] at hclear
    refine (hn.search name ?_ ?_).append (hns.searchAll name ?_)
    · exact hclear _ List.mem_cons_self
    · exact fun m hm => hclear m (List.mem_cons_of_mem _ (List.mem_append_left _ hm))
    · exact fun m hm => hclear m (List.mem_cons_of_mem _ (List.mem_append_right _ hm))
  | _, _, .cut hcut, hclear => by
    rw [Node.surroundedAll] at hclear
    exact absurd hcut (hclear _ List.mem_cons_self)

end

namespace View.Agrees

variable {v v' : View}

theorem member (h : View.Agrees pending v v') (name : String) (hnodes : Clear pending v.nodes)
    (hsearched : Clear pending v.searched) :
    View.Agrees pending (v.member name) (v'.member name) := by
  cases h with
  | absent => exact .absent
  | @single n n' hn =>
    have hlies := hnodes n List.mem_cons_self
    cases hn with
    | same _ => exact .refl pending _
    | unsettled hlies' => exact absurd hlies' hlies
    | object hpaths h => exact (Node.Agrees.object hpaths h).member? hlies name
    | @array place ns ns' _ h =>
      -- a name is searched in the items of an array, as in those of a collection
      refine .many (h.searchAll name fun m hm => hsearched m ?_)
      rw [View.searched, View.nodes, Option.toList_some, List.flatMap_singleton]
      exact hm
  | unsettled _ hlies => exact absurd hlies (hnodes _ List.mem_cons_self)
  | many h =>
    refine .many (h.searchAll name fun m hm => ?_)
    rcases mem_surroundedAll.1 hm with hm | hm
    · exact hnodes m hm
    · exact hsearched m hm

/-- The items that two lookups have reached agree. -/
theorem items (h : View.Agrees pending v v') (hnodes : Clear pending v.nodes) :
    NodesAgree pending v.items v'.items := by
  cases h with
  | absent => exact .nil
  | @single n n' hn =>
    have hitems := hn.items (hnodes n List.mem_cons_self)
    exact hitems
  | unsettled _ hlies => exact absurd hlies (hnodes _ List.mem_cons_self)
  | many h => exact h

theorem item (h : View.Agrees pending v v') (i : Nat)
    (hclear : Clear pending (v.counted (some i))) :
    View.Agrees pending (v.item i) (v'.item i) := by
  have hnodes : Clear pending v.nodes := fun n hn => hclear n (List.mem_append_left _ hn)
  have hat := (h.items hnodes).getElem? i fun n hn => hclear n (List.mem_append_right _ hn)
  cases h with
  | absent => exact .absent
  | @single n n' hn =>
    have hitem : ∀ m : Node, (View.single (some m)).item i =
        .single (View.single (some m)).items[i]? := by
      intro m
      rcases m with _ | _ | _ <;> rfl
    rw [hitem, hitem]
    exact hat
  | unsettled _ hlies => exact absurd hlies (hnodes _ List.mem_cons_self)
  | many _ => exact hat

/-- What functions of collections go through agrees. -/
theorem exists_items (h : View.Agrees pending v v') (hnodes : Clear pending v.nodes)
    (function : String) (position : Position) :
    ∃ ns ns', v.toValue.items function position = .ok ns ∧
      v'.toValue.items function position = .ok ns' ∧ NodesAgree pending ns ns' := by
  cases h with
  | absent => exact ⟨[], [], rfl, rfl, .nil⟩
  | @single n n' hn =>
    exact ⟨n.spread, n'.spread, rfl, rfl, hn.spread (hnodes n List.mem_cons_self)⟩
  | unsettled _ hlies => exact absurd hlies (hnodes _ List.mem_cons_self)
  | @many ns ns' h => exact ⟨ns, ns', rfl, rfl, h⟩

/-- Lookups that agree have reached the same where nothing meets the places. -/
theorem eq (h : View.Agrees pending v v') (hmeets : ∀ n ∈ v.nodes, ¬ n.path.Meets pending) :
    v' = v := by
  cases h with
  | absent => rfl
  | single hn => rw [hn.eq (hmeets _ List.mem_cons_self)]
  | unsettled _ hlies => exact absurd hlies.meets (hmeets _ List.mem_cons_self)
  | many h => rw [h.eq hmeets]

end View.Agrees

/-! ### Selectors -/

theorem nodesAgree_flatMap_spread (h : List.Forall₂ (Node.Agrees pending) ns ns')
    (hclear : Clear pending ns) :
    NodesAgree pending (ns.flatMap Node.spread) (ns'.flatMap Node.spread) := by
  induction h with
  | nil => exact .nil
  | cons hn _ ih =>
    rw [List.flatMap_cons, List.flatMap_cons]
    refine (hn.spread (hclear _ List.mem_cons_self)).append (ih fun m hm => ?_)
    exact hclear m (List.mem_cons_of_mem _ hm)

/-- Whether none of several sightings depends on one of the places. -/
def Unreached (pending : List Path) (sightings : List Sighting) : Prop :=
  ∀ s ∈ sightings, ∀ q ∈ pending, ¬ s.reaches q

theorem Unreached.clear {isNoticed : Bool}
    (h : Unreached pending (ns.map fun n => ⟨n.path, false, isNoticed⟩)) : Clear pending ns := by
  rintro n hn ⟨q, hq, hdocument, hkeys⟩
  refine h _ (List.mem_map_of_mem hn) q hq ?_
  rw [Sighting.reaches_iff]
  exact ⟨hdocument, .inl hkeys⟩

theorem Unreached.not_meets {isNoticed : Bool}
    (h : Unreached pending (ns.map fun n => ⟨n.path, true, isNoticed⟩)) :
    ∀ n ∈ ns, ¬ n.path.Meets pending := by
  rintro n hn ⟨q, hq, hdocument, hkeys⟩
  refine h _ (List.mem_map_of_mem hn) q hq ?_
  rw [Sighting.reaches_iff]
  exact ⟨hdocument, hkeys.imp_right fun h => ⟨rfl, h⟩⟩

/-- What selectors make of items that agree agrees. -/
theorem NodesAgree.select (h : NodesAgree pending ns ns') (a : Arrangement)
    (hunreached : Unreached pending (a.surveyed true ns)) :
    View.Agrees pending (a.select ns) (a.select ns') := by
  cases a with
  | first =>
    have hfirst := h.getElem? 0 hunreached.clear
    rwa [← List.head?_eq_getElem?, ← List.head?_eq_getElem?] at hfirst
  | last =>
    -- the last item is the first one from behind, and all of them have been seen
    have hall := h.forall₂ hunreached.clear
    have hlast := (nodesAgree_of_forall₂ (List.forall₂_reverse_iff.2 hall)).getElem? 0
      fun n hn => hunreached.clear n (List.mem_reverse.1 (List.mem_of_mem_take hn))
    rw [← List.head?_eq_getElem?, ← List.head?_eq_getElem?, List.head?_reverse,
      List.head?_reverse] at hlast
    exact hlast
  | flatten =>
    have hall := h.forall₂ hunreached.clear
    exact .many (nodesAgree_flatMap_spread hall hunreached.clear)
  | reverse =>
    have hall := h.forall₂ hunreached.clear
    exact .many (nodesAgree_of_forall₂ (List.forall₂_reverse_iff.2 hall))
  | distinct =>
    rw [h.eq hunreached.not_meets]
    exact .refl pending _
  | custom name select =>
    rw [h.eq hunreached.not_meets]
    exact .refl pending _

end DocQuery
