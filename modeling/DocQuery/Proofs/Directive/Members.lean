/-
Members that are copied into an object.

* `copiedFields` — the fields of objects that an object receives beside members of its own;
* `freshMembers_eq` — of each name that is not taken, the first member is new;
* `Draft.members_are_copied_in_place` — an object after members have been copied into it.

Design notes: an object is the list of its members, so what is said of it is where in this list the
fields stand. The values of the fields stand in cells of their own, and nothing is said of these but
the JSON that they are, wherever they are placed.
-/
import DocQuery.Proofs.Directive.Rewriting

namespace DocQuery

/-- The fields that an object receives from others beside members of these names: of each name that
is not among them the first one, but no further directive to copy. -/
def copiedFields (names : List String) (sources : List Node) : List (String × Node) :=
  ((sources.flatMap fun source => source.members?.getD []).filter fun field =>
    field.1 ≠ copyFieldsName ∧ field.1 ∉ names).eraseDupsBy fun field earlier =>
      field.1 == earlier.1

/-- Of each name that is not taken, the first member is new. -/
theorem freshMembers_eq (taken : List String) (members : List (String × Node)) :
    freshMembers taken members =
      (members.filter fun m => !taken.contains m.1).eraseDupsBy fun m earlier =>
        m.1 == earlier.1 := by
  induction members generalizing taken with
  | nil => rfl
  | cons m members ih =>
    rw [freshMembers]
    by_cases htaken : taken.contains m.1
    · rw [if_pos htaken, List.filter_cons_of_neg (by simpa using htaken), ih]
    · rw [if_neg htaken, List.filter_cons_of_pos (by simpa using htaken), List.eraseDupsBy_cons,
        List.filter_filter, ih]
      -- a name that has been passed is taken from there on
      congr 2
      refine List.filter_congr fun other _ => ?_
      by_cases hsame : other.1 = m.1
      · simp [hsame]
      · simp [hsame]

/-- What is new in an object with a directive to copy is what it receives. -/
theorem freshMembers_eq_copiedFields {names taken : List String} (sources : List Node)
    (htaken : ∀ name, name ∈ taken ↔ name = copyFieldsName ∨ name ∈ names) :
    freshMembers taken (sources.flatMap fun source => source.members?.getD []) =
      copiedFields names sources := by
  rw [freshMembers_eq, copiedFields]
  congr 1
  refine List.filter_congr fun field _ => ?_
  rw [Bool.eq_iff_iff, decide_eq_true_iff, Bool.not_eq_true', ← Bool.not_eq_true,
    List.contains_iff_mem, htaken, not_or]

/-- A value that offers objects offers the members of these. -/
theorem Value.Offers.bind_offeredMembers {v : Value} {sources : List Node} (h : v.Offers sources)
    (position : Position) : (Except.ok v : Except Fault Value).bind (offeredMembers position) =
      .ok (sources.flatMap fun source => source.members?.getD []) := by
  show v.offeredMembers position = _
  have hall : ∀ {ns : List Node}, (∀ n ∈ ns, n.members?.isSome) →
      (ns.all fun n => n.members?.isSome) = true := List.all_eq_true.2
  rw [offeredMembers]
  cases h with
  | nothing => rfl
  | object p ms => rfl
  | array p hobjects =>
    rw [Value.sources, if_pos (hall hobjects)]
    rfl
  | nodes hobjects =>
    rw [Value.sources, if_pos (hall hobjects)]
    rfl

/-- A value that offers no objects is refused. -/
theorem Value.bind_offeredMembers_of_refused {v : Value} (h : ∀ sources, ¬ v.Offers sources)
    (position : Position) :
    ∃ problem ∈ [.copyFromNonObject v.sort, .copyFromNonObjects],
      (Except.ok v : Except Fault Value).bind (offeredMembers position) =
        .error (.failed problem position) := by
  have hspec := v.offeredMembers_spec position
  generalize hoffered : v.offeredMembers position = offered at hspec
  cases hspec with
  | offered hoffers => exact absurd hoffers (h _)
  | @refused problem _ hproblem => exact ⟨problem, hproblem, hoffered⟩

namespace Draft

variable {d : Draft} {first object : Nat}

/-- Added members have the names and the values that have been added. -/
theorem HoldsFrom.forall₂_members {fields : List (String × Node)}
    (h : d.HoldsFrom first (fields.map (·.2))) :
    List.Forall₂ (fun m field => m.1 = field.1 ∧ d.content? m.2 = some (.imported field.2))
      ((fields.map (·.1)).zip (List.range' first (fields.map (·.2)).length)) fields := by
  induction fields generalizing first with
  | nil => exact .nil
  | cons field fields ih =>
    rw [List.map_cons, List.map_cons, List.length_cons, List.range'_succ, List.zip_cons_cons]
    exact .cons ⟨rfl, h 0 field.2 rfl⟩ (ih h.tail)

/-- A finished value in a cell is the same JSON wherever the cell stands. -/
theorem toJson_freezeFrom_imported {id : Nat} {v : Node} (hc : d.content? id = some (.imported v))
    (fuel : Nat) (path : Path) : (d.freezeFrom (fuel + 1) path id).toJson = v.toJson := by
  rw [freezeFrom_imported hc]
  exact v.toJson_moved path

/-- Members that have been added stand in the place of another one. -/
theorem content?_spliceMember {id : Nat} {name : String} {before after more : List (String × Nat)}
    {position : Position} {ns : List Node}
    (hobject : d.content? object = some (.object (before ++ (name, id) :: after)))
    (hfirst : name ∉ before.map (·.1)) :
    ((d.addAll position ns).1.spliceMember object name more).content? object =
      some (.object (before ++ more ++ after)) := by
  rw [spliceMember, content?_changed hobject]
  show some (Content.object (spliceInto name more (before ++ (name, id) :: after))) = _
  rw [spliceInto_append hfirst]

/-- The member that asks for members gives way, and nothing is added, if they fail to be found. -/
theorem content?_spliceMember_nil {id : Nat} {name : String} {before after : List (String × Nat)}
    (hobject : d.content? object = some (.object (before ++ (name, id) :: after)))
    (hfirst : name ∉ before.map (·.1)) :
    (d.spliceMember object name []).content? object = some (.object (before ++ after)) := by
  have hadd : d.spliceMember object name [] =
      (d.addAll .start []).1.spliceMember object name [] := rfl
  rw [hadd, content?_spliceMember hobject hfirst, List.append_nil]

theorem changedIn_spliceMember (d : Draft) (position : Position) (ns : List Node) (object : Nat)
    (name : String) (more : List (String × Nat)) :
    d.ChangedIn object ((d.addAll position ns).1.spliceMember object name more) := by
  rw [spliceMember]
  exact d.changedIn_addAll position ns object _

/-- Copying changes the object around the directive only. -/
theorem changedIn_writeMembers {id : Nat} {name : String}
    (hslot : d.slot? id = some (.member object name)) (outcome : Except Fault Value) :
    d.ChangedIn object (d.writeMembers id outcome).1 := by
  cases h : outcome.bind (Value.offeredMembers (d.positionOf id)) with
  | error fault =>
    rw [writeMembers_of_error hslot h]
    exact d.changedIn_spliceMember .start [] object name []
  | ok offered =>
    rw [writeMembers_of_ok hslot h]
    exact d.changedIn_spliceMember _ _ object name _

section Copying

variable {id : Nat} {before after : List (String × Nat)} {v : Value}

/-- What becomes of an object if the value `v` offers other objects. -/
theorem writeMembers_offered {sources : List Node}
    (hslot : d.slot? id = some (.member object copyFieldsName))
    (hobject : d.content? object = some (.object (before ++ (copyFieldsName, id) :: after)))
    (hfirst : copyFieldsName ∉ before.map (·.1)) (hoffers : v.Offers sources) :
    (d.writeMembers id (.ok v)).2 = none ∧ ∃ added,
      (d.writeMembers id (.ok v)).1.content? object = some (.object (before ++ added ++ after)) ∧
      List.Forall₂ (fun m field => m.1 = field.1 ∧ ∀ fuel path,
        ((d.writeMembers id (.ok v)).1.freezeFrom (fuel + 1) path m.2).toJson = field.2.toJson)
          added (copiedFields ((before ++ after).map (·.1)) sources) := by
  have htaken : ∀ name, name ∈ copyFieldsName :: d.memberNames object ↔
      name = copyFieldsName ∨ name ∈ (before ++ after).map (·.1) := by
    intro name
    rw [memberNames, hobject]
    simp only [List.map_append, List.map_cons, List.mem_cons, List.mem_append]
    tauto
  rw [writeMembers_of_ok hslot (hoffers.bind_offeredMembers (d.positionOf id)),
    freshMembers_eq_copiedFields sources htaken]
  generalize copiedFields ((before ++ after).map (·.1)) sources = fields
  refine ⟨rfl, (fields.map (·.1)).zip (List.range' d.cells.size (fields.map (·.2)).length),
    ?_, ?_⟩
  · show (spliceMember _ _ _ _).content? object = _
    rw [content?_spliceMember hobject hfirst, addAll_eq]
  · have hholds : ((d.addAll (d.positionOf id) (fields.map (·.2))).1.spliceMember object
        copyFieldsName ((fields.map (·.1)).zip
          (d.addAll (d.positionOf id) (fields.map (·.2))).2)).HoldsFrom d.cells.size
            (fields.map (·.2)) := holdsFrom_changed hobject
    exact hholds.forall₂_members.imp fun m field hm => ⟨hm.1, toJson_freezeFrom_imported hm.2⟩

/-- What becomes of an object if the value `v` offers none. -/
theorem writeMembers_refused (hslot : d.slot? id = some (.member object copyFieldsName))
    (hobject : d.content? object = some (.object (before ++ (copyFieldsName, id) :: after)))
    (hfirst : copyFieldsName ∉ before.map (·.1)) (hno : ∀ sources, ¬ v.Offers sources) :
    (∃ problem ∈ [.copyFromNonObject v.sort, .copyFromNonObjects],
      (d.writeMembers id (.ok v)).2 = some (.failed problem (d.positionOf id))) ∧
      (d.writeMembers id (.ok v)).1.content? object = some (.object (before ++ after)) := by
  obtain ⟨problem, hproblem, hbind⟩ := Value.bind_offeredMembers_of_refused hno (d.positionOf id)
  rw [writeMembers_of_error hslot hbind]
  exact ⟨⟨problem, hproblem, rfl⟩, content?_spliceMember_nil hobject hfirst⟩

end Copying

/-- An object in which a directive to copy members stands, after the value `v` has been written for
it. If `v` offers objects, their fields stand in the place of the directive, each name for the first
time that it is found and unless the object has it, and each field as the JSON that it is in its
source. If `v` offers something else, the directive is gone and there is one fault. The members
before and after it are the same, and so is the rest of the document. -/
theorem members_are_copied_in_place (w : Workshop) {x : Directive} {f : Formula}
    {before after : List (String × Nat)} (hx : x.action = .copyFields f)
    (hslot : d.slot? x.cell = some (.member object copyFieldsName))
    (hobject : d.content? object =
      some (.object (before ++ (copyFieldsName, x.cell) :: after)))
    (hfirst : copyFieldsName ∉ before.map (·.1)) (v : Value) :
    let written := d.write w x (.ok v)
    (∀ sources, v.Offers sources →
      written.2 = none ∧ ∃ added,
        written.1.content? object = some (.object (before ++ added ++ after)) ∧
        List.Forall₂ (fun m field => m.1 = field.1 ∧ ∀ fuel path,
          (written.1.freezeFrom (fuel + 1) path m.2).toJson = field.2.toJson)
            added (copiedFields ((before ++ after).map (·.1)) sources)) ∧
    ((∀ sources, ¬ v.Offers sources) →
      (∃ problem ∈ [.copyFromNonObject v.sort, .copyFromNonObjects],
        written.2 = some (.failed problem (d.positionOf x.cell))) ∧
        written.1.content? object = some (.object (before ++ after))) ∧
    d.ChangedIn object written.1 := by
  intro written
  have hwritten : written = d.writeMembers x.cell (.ok v) := by
    show d.write w x (.ok v) = _
    rw [write, hx]
  rw [hwritten]
  refine ⟨?_, ?_, changedIn_writeMembers hslot _⟩
  · intro sources hoffers
    exact writeMembers_offered hslot hobject hfirst hoffers
  · intro hno
    exact writeMembers_refused hslot hobject hfirst hno

/-- A field whose name the object has, one that two sources have, and one that is a directive to
copy. -/
theorem members_are_copied_in_place_first :
    let d := Draft.ofSource (.object [("A", .scalar .null none .start),
      (copyFieldsName, .scalar (.quoted "S") none .start), ("D", .scalar .null none .start)] .start)
    let w : Workshop := ⟨"T", [], .standard, .midnight ⟨2024, 1, 1⟩⟩
    let p := Place.at (.root "S")
    let v : Value := .nodes [
      .object p [("D", .scalar p (.quoted "x")), ("B", .scalar p (.quoted "y"))],
      .object p [("B", .scalar p .null), (copyFieldsName, .scalar p .null), ("C", .scalar p .null)]]
    ∃ b c, (d.write w ⟨1, .copyFields (.now .start)⟩ (.ok v)).1.content? 3 =
      some (.object [("A", 0), ("B", b), ("C", c), ("D", 2)]) := by
  intro d w p v
  have hobject : d.content? 3 =
      some (.object ([("A", 0)] ++ (copyFieldsName, 1) :: [("D", 2)])) := rfl
  have hslot : d.slot? 1 = some (.member 3 copyFieldsName) := by decide
  have hoffers : v.Offers _ := .nodes (by decide)
  obtain ⟨-, added, hadded, hfields⟩ := (members_are_copied_in_place w
    (x := ⟨1, .copyFields (.now .start)⟩) rfl hslot hobject (by decide) v).1 _ hoffers
  have hcopied : copiedFields ["A", "D"] [
      .object p [("D", .scalar p (.quoted "x")), ("B", .scalar p (.quoted "y"))],
      .object p [("B", .scalar p .null), (copyFieldsName, .scalar p .null),
        ("C", .scalar p .null)]] = [("B", .scalar p (.quoted "y")), ("C", .scalar p .null)] := by
    rfl
  replace hfields := hcopied ▸ hfields
  obtain ⟨⟨_, b⟩, _, hb, hbehind, rfl⟩ := List.forall₂_cons_right_iff.1 hfields
  obtain ⟨⟨_, c⟩, _, hc, hnone, rfl⟩ := List.forall₂_cons_right_iff.1 hbehind
  obtain rfl := List.forall₂_nil_right_iff.1 hnone
  obtain ⟨rfl, -⟩ := hb
  obtain ⟨rfl, -⟩ := hc
  exact ⟨b, c, hadded⟩

end Draft

end DocQuery
