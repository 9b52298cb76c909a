/-
Texts in which nothing is to be computed.

* `IsLiteralText` — a string that is neither a call nor has an expression in it;
* `Source.IsLiteral` — a text of such strings, without members to copy;
* `detect_ofSource_of_isLiteral` — such a text has no directives, whatever the dialect.

Design notes: whether a cell holds a directive is seen from the cell and from the name under which
its container has it, so it is enough that all cells that are planted are literal.
-/
import DocQuery.Proofs.Directive.Detection
import DocQuery.Proofs.Draft.Write

namespace DocQuery

/-! ### Strings -/

/-- Whether nothing in a string is to be computed. -/
structure IsLiteralText (cs : List Char) : Prop where
  not_value : ¬ valueMarker <+: cs
  not_merge : ¬ mergeMarker <+: cs
  not_expression : ¬ ['$', '('] <:+: cs

theorem plainStart_of_not_infix {cs : List Char} (h : ¬ ['$', '('] <:+: cs) :
    plainStart cs = cs := by
  induction cs with
  | nil => rfl
  | cons c cs ih =>
    rw [plainStart]
    · rw [ih fun hinside => h (List.infix_cons hinside)]
    · intro rest hc hrest
      subst hc hrest
      exact h (List.prefix_append ['$', '('] rest).isInfix

theorem callBody?_of_not_prefix {marker cs : List Char} (h : ¬ marker <+: cs) :
    callBody? marker cs = none := by
  rw [callBody?, if_neg]
  exact fun hprefix => h (List.isPrefixOf_iff_prefix.1 hprefix)

variable {d : Dialect} {c : Cell} {slot : Option Slot} {cs : List Char}

theorem stringAction_of_isLiteralText (h : IsLiteralText cs) :
    stringAction d c slot cs = .ok none := by
  have hvalue : valueMarker.isPrefixOf cs = false :=
    Bool.eq_false_iff.2 fun hprefix => h.not_value (List.isPrefixOf_iff_prefix.1 hprefix)
  have hmerge : mergeMarker.isPrefixOf cs = false :=
    Bool.eq_false_iff.2 fun hprefix => h.not_merge (List.isPrefixOf_iff_prefix.1 hprefix)
  have hclosed : ([valueMarker, mergeMarker].find? fun marker =>
      marker.isPrefixOf cs && (callEnd? marker cs).isNone) = none := by
    simp [hvalue, hmerge]
  have hplain : hasExpression cs = false := by
    rw [hasExpression, plainStart_of_not_infix h.not_expression]
    simp
  unfold stringAction
  simp only [hclosed, callBody?_of_not_prefix h.not_value, callBody?_of_not_prefix h.not_merge,
    interpolationIn, hplain]
  rfl

/-! ### Cells -/

/-- Whether a cell neither holds a string with something to compute nor a member to copy from. -/
inductive Cell.IsLiteral : Cell → Prop
  | object {members : List (String × Nat)} (position : Position) (columns : Option (List Nat)) :
    (∀ m ∈ members, m.1 ≠ copyFieldsName) → IsLiteral ⟨.object members, position, columns⟩
  | array (items : List Nat) (position : Position) (columns : Option (List Nat)) :
    IsLiteral ⟨.array items, position, columns⟩
  | scalar {s : Scalar} (position : Position) (columns : Option (List Nat)) :
    (s.isQuoted → IsLiteralText s.text.toList) → IsLiteral ⟨.scalar s, position, columns⟩

theorem cellAction_of_isLiteral (h : c.IsLiteral) (hslot : slot.any Slot.isCopyFields = false) :
    cellAction d c slot = .ok none := by
  rw [cellAction, hslot]
  cases h with
  | object position columns _ => rfl
  | array items position columns => rfl
  | @scalar s position columns htext =>
    obtain ⟨text, isQuoted⟩ := s
    cases isQuoted with
    | false => rfl
    | true =>
      show stringAction d ⟨.scalar ⟨text, true⟩, position, columns⟩ slot text.toList = .ok none
      exact stringAction_of_isLiteralText (htext rfl)

variable {draft : Draft}

/-- No cell sits in a literal draft as a member to copy from. -/
theorem slot?_of_isLiteral (h : ∀ c ∈ draft.cells, c.IsLiteral) (id : Nat) :
    (draft.slot? id).any Slot.isCopyFields = false := by
  rcases hslot : draft.slot? id with _ | s
  · rfl
  · have hentry := Draft.mem_entries_of_slot? hslot
    rcases s with ⟨object, name⟩ | ⟨array, index⟩
    · obtain ⟨before, after, hc⟩ := Draft.exists_members_of_entry hentry
      obtain ⟨cell, hcell, hcontent⟩ := Option.map_eq_some_iff.1 hc
      have hliteral := h cell (Array.mem_of_getElem? hcell)
      show (name == copyFieldsName) = false
      cases hliteral with
      | object _ _ hnames =>
        obtain rfl := Content.object.inj hcontent
        exact beq_false_of_ne (hnames (name, id) (by simp))
      | array => cases hcontent
      | scalar => cases hcontent
    · rfl

/-- A literal draft has no directives. -/
theorem detect_of_isLiteral (h : ∀ c ∈ draft.cells, c.IsLiteral) : detect d draft = .ok [] := by
  have hnone : ∀ id, directiveOf d draft id = .ok none := by
    intro id
    rw [directiveOf]
    split
    · rfl
    · rename_i cell hcell
      rw [cellAction_of_isLiteral (h cell (Array.mem_of_getElem? hcell)) (slot?_of_isLiteral h id)]
      rfl
  have hall : ∀ ids, directivesOf d draft ids = .ok [] := by
    intro ids
    induction ids with
    | nil => rfl
    | cons id ids ih =>
      rw [directivesOf, hnone, ih]
      rfl
  rw [detect, hall]
  rfl

/-! ### Texts -/

/-- Whether nothing in a text is to be computed. -/
inductive Source.IsLiteral : Source → Prop
  | object {members : List (String × Source)} (position : Position) :
    (∀ m ∈ members, m.1 ≠ copyFieldsName) → (∀ m ∈ members, m.2.IsLiteral) →
      IsLiteral (.object members position)
  | array {items : List Source} (position : Position) : (∀ v ∈ items, v.IsLiteral) →
    IsLiteral (.array items position)
  | scalar {s : Scalar} (columns : Option (List Nat)) (position : Position) :
    (s.isQuoted → IsLiteralText s.text.toList) → IsLiteral (.scalar s columns position)

namespace Draft

theorem names_plantMembers (cells : Array Cell) (members : List (String × Source)) :
    (plantMembers cells members).2.map (·.1) = members.map (·.1) := by
  induction members generalizing cells with
  | nil => rfl
  | cons m members ih =>
    obtain ⟨name, value⟩ := m
    rw [plantMembers, List.map_cons, List.map_cons, ih]

theorem forall_mem_push {cells : Array Cell} (h : ∀ c ∈ cells, c.IsLiteral) (hc : c.IsLiteral) :
    ∀ c' ∈ cells.push c, c'.IsLiteral := by
  intro c' hc'
  rcases Array.mem_push.1 hc' with hc' | rfl
  · exact h c' hc'
  · exact hc

mutual

theorem plant_isLiteral {cells : Array Cell} (h : ∀ c ∈ cells, c.IsLiteral) :
    (s : Source) → s.IsLiteral → ∀ c ∈ (plant cells s).1, c.IsLiteral
  | .object members position, hs => by
    cases hs with
    | object _ hnames hvalues =>
      rw [plant]
      refine forall_mem_push (plantMembers_isLiteral h members hvalues) (.object _ _ ?_)
      intro m hm
      have hname : m.1 ∈ members.map (·.1) := by
        rw [← names_plantMembers cells members]
        exact List.mem_map_of_mem hm
      obtain ⟨m', hm', heq⟩ := List.mem_map.1 hname
      exact heq ▸ hnames m' hm'
  | .array items position, hs => by
    cases hs with
    | array _ hvalues =>
      rw [plant]
      exact forall_mem_push (plantItems_isLiteral h items hvalues) (.array ..)
  | .scalar s columns position, hs => by
    cases hs with
    | scalar _ _ htext => exact forall_mem_push h (.scalar _ _ htext)

theorem plantMembers_isLiteral {cells : Array Cell} (h : ∀ c ∈ cells, c.IsLiteral) :
    (members : List (String × Source)) → (∀ m ∈ members, m.2.IsLiteral) →
      ∀ c ∈ (plantMembers cells members).1, c.IsLiteral
  | [], _ => h
  | (name, value) :: members, hmembers => by
    rw [List.forall_mem_cons] at hmembers
    rw [plantMembers]
    exact plantMembers_isLiteral (plant_isLiteral h value hmembers.1) members hmembers.2

theorem plantItems_isLiteral {cells : Array Cell} (h : ∀ c ∈ cells, c.IsLiteral) :
    (items : List Source) → (∀ v ∈ items, v.IsLiteral) →
      ∀ c ∈ (plantItems cells items).1, c.IsLiteral
  | [], _ => h
  | value :: items, hitems => by
    rw [List.forall_mem_cons] at hitems
    rw [plantItems]
    exact plantItems_isLiteral (plant_isLiteral h value hitems.1) items hitems.2

end

end Draft

/-- A literal text has no directives. -/
theorem detect_ofSource_of_isLiteral {source : Source} (h : source.IsLiteral) :
    detect d (.ofSource source) = .ok [] := by
  refine detect_of_isLiteral ?_
  have hempty : ∀ c ∈ (#[] : Array Cell), c.IsLiteral := by
    intro c hc
    cases hc
    contradiction
  exact Draft.plant_isLiteral hempty source h

end DocQuery
