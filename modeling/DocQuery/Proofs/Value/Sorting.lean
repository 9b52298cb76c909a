/-
Objects in the order of their names.

* `Json.insertMember_comm` — two members of different names may be inserted in either order;
* `Json.ofMembers_perm` — so members of different names make one object in any order;
* `Json.exists_ofMembers` — the members of an object stand in the order of their names;
* `Node.toJson_object_perm` — the order of the members of a value does not show in its JSON.

Design notes: of members with one name the last counts, so their order shows, and only that.
-/
import DocQuery.Proofs.Value.Comparing
import Mathlib.Data.List.Perm.Basic

namespace DocQuery

namespace Json

variable {name other : String} {value old : Json} {members members' : List (String × Json)}

/-- Two members of different names may be inserted in either order. -/
theorem insertMember_comm (h : name ≠ other) :
    insertMember name value (insertMember other old members) =
      insertMember other old (insertMember name value members) := by
  induction members with
  | nil =>
    rcases Std.lt_trichotomy name other with hlt | heq | hlt
    · simp [insertMember, hlt, String.lt_asymm hlt, h.symm]
    · exact absurd heq h
    · simp [insertMember, hlt, String.lt_asymm hlt, h]
  | cons m members ih =>
    -- each of the two names comes before the first one, is it, or comes behind it
    obtain ⟨first, v⟩ := m
    grind [insertMember]

/-- Members of different names make one object in any order. -/
theorem ofMembers_perm (hnames : (members.map (·.1)).Nodup) (h : members.Perm members') :
    ofMembers members = ofMembers members' := by
  refine congrArg object (h.foldl_eq' (fun m hm m' hm' sorted => ?_) [])
  by_cases heq : m = m'
  · rw [heq]
  · have hne : m'.1 ≠ m.1 := fun hname =>
      heq (List.inj_on_of_nodup_map hnames hm hm' hname.symm)
    exact insertMember_comm hne

/-- A member that is inserted keeps the order. -/
theorem pairwise_insertMember (name : String) (value : Json)
    (h : members.Pairwise fun m m' => m.1 < m'.1) :
    (insertMember name value members).Pairwise fun m m' => m.1 < m'.1 := by
  induction h with
  | nil => exact List.pairwise_singleton _ _
  | @cons m members hfirst hsorted ih =>
    rw [insertMember]
    split_ifs with hlt heq
    · refine List.pairwise_cons.2 ⟨?_, List.pairwise_cons.2 ⟨hfirst, hsorted⟩⟩
      exact List.forall_mem_cons.2 ⟨hlt, fun m' hm' => String.lt_trans hlt (hfirst m' hm')⟩
    · exact List.pairwise_cons.2 ⟨fun m' hm' => heq ▸ hfirst m' hm', hsorted⟩
    · refine List.pairwise_cons.2 ⟨fun m' hm' => ?_, ih⟩
      rcases mem_insertMember hm' with rfl | hm'
      · exact Std.lt_of_le_of_ne (String.not_lt.1 hlt) (Ne.symm heq)
      · exact hfirst m' hm'

/-- The members of an object stand in the order of their names, and all of them were given. -/
theorem exists_ofMembers (members : List (String × Json)) :
    ∃ sorted, ofMembers members = .object sorted ∧ (sorted.Pairwise fun m m' => m.1 < m'.1) ∧
      sorted ⊆ members := by
  have hall : ∀ before : List (String × Json), (before.Pairwise fun m m' => m.1 < m'.1) →
      ((members.foldl (fun sorted m => insertMember m.1 m.2 sorted) before).Pairwise
        fun m m' => m.1 < m'.1) ∧
      members.foldl (fun sorted m => insertMember m.1 m.2 sorted) before ⊆ before ++ members := by
    induction members with
    | nil => exact fun before hbefore => ⟨hbefore, List.subset_append_left _ _⟩
    | cons m members ih =>
      intro before hbefore
      obtain ⟨hsorted, hsub⟩ := ih _ (pairwise_insertMember m.1 m.2 hbefore)
      refine ⟨hsorted, List.Subset.trans hsub (List.append_subset.2 ⟨fun m' hm' => ?_, ?_⟩)⟩
      · rcases mem_insertMember hm' with rfl | hm'
        · exact List.mem_append_right _ List.mem_cons_self
        · exact List.mem_append_left _ hm'
      · exact List.Subset.trans (List.subset_cons_self _ _) (List.subset_append_right _ _)
  exact ⟨_, rfl, hall [] .nil⟩

end Json

namespace Node

theorem membersToJson_eq_map (members : List (String × Node)) :
    membersToJson members = members.map fun m => (m.1, m.2.toJson) := by
  induction members with
  | nil => rfl
  | cons m members ih => rw [membersToJson, ih, List.map_cons]

theorem itemsToJson_eq_map (items : List Node) : itemsToJson items = items.map toJson := by
  induction items with
  | nil => rfl
  | cons n items ih => rw [itemsToJson, ih, List.map_cons]

/-- Members of different names make one JSON value in any order. -/
theorem toJson_object_perm {p q : Place} {members members' : List (String × Node)}
    (hnames : (members.map (·.1)).Nodup) (h : members.Perm members') :
    (object p members).toJson = (object q members').toJson := by
  rw [toJson, toJson, membersToJson_eq_map, membersToJson_eq_map]
  refine Json.ofMembers_perm ?_ (h.map _)
  rwa [List.map_map]

end Node

end DocQuery
