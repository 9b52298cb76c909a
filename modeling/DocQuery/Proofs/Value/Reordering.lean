/-
Objects with their members in another order.

* `Node.Reordered` — values that differ only in the order of members, at any depth;
* `Node.sorted` — a value with the members of all its objects in the order of their names;
* `Node.lookup_sortedMembers`, `Node.toJson_sorted` — sorting keeps what a name stands for, and the
  JSON;
* `Node.Reordered.sorted_eq` — values that differ only in the order of members are sorted alike;
* `Node.reordered_sorted` — and a sorted value is one of them.

Design notes: sorting is stable, since of members with one name the first is found and the last one
becomes JSON. It is the same for two orders only where names differ, as they do in documents.
-/
import DocQuery.Proofs.Directive.Addresses
import DocQuery.Proofs.Value.Sorting
import Mathlib.Data.List.Sort
import Mathlib.Data.String.Basic

namespace DocQuery

/-- Whether two values differ only in the order of the members of objects, at any depth. -/
inductive Node.Reordered : Node → Node → Prop
  | scalar (p : Place) (s : Scalar) : Reordered (.scalar p s) (.scalar p s)
  | array (p : Place) {items items' : List Node} : List.Forall₂ Reordered items items' →
    Reordered (.array p items) (.array p items')
  | object (p : Place) {members kept members' : List (String × Node)} :
    kept.map (·.1) = members.map (·.1) →
      List.Forall₂ (fun m m' => Reordered m.2 m'.2) members kept →
        kept.Perm members' → Reordered (.object p members) (.object p members')

namespace Node

/-- Whether the name of a member is not behind that of another one. -/
abbrev byName : String × Node → String × Node → Prop := Order.Preimage Prod.fst (· ≤ ·)

mutual

/-- A value with the members of all its objects in the order of their names. -/
def sorted : Node → Node
  | object p members => object p (sortedMembers members)
  | array p items => array p (sortedItems items)
  | scalar p s => scalar p s

/-- Members in the order of their names, and so are those inside them. -/
def sortedMembers : List (String × Node) → List (String × Node)
  | [] => []
  | (name, value) :: members => (sortedMembers members).orderedInsert byName (name, value.sorted)

/-- Items in their order, with the members inside them in the order of their names. -/
def sortedItems : List Node → List Node
  | [] => []
  | value :: items => value.sorted :: sortedItems items

end

section Sorting

variable {m : String × Node} {members members' : List (String × Node)}

theorem sortedItems_eq_map (items : List Node) : sortedItems items = items.map sorted := by
  induction items with
  | nil => rfl
  | cons value items ih => rw [sortedItems, ih, List.map_cons]

theorem sortedMembers_perm (members : List (String × Node)) :
    (sortedMembers members).Perm (members.map fun m => (m.1, m.2.sorted)) := by
  induction members with
  | nil => exact .nil
  | cons m members ih =>
    rw [sortedMembers]
    exact (List.perm_orderedInsert _ _ _).trans (ih.cons _)

theorem pairwise_sortedMembers (members : List (String × Node)) :
    (sortedMembers members).Pairwise byName := by
  induction members with
  | nil => exact .nil
  | cons m members ih => exact ih.orderedInsert _ _

/-- The first member of a name stays the first one of that name. -/
theorem lookup_orderedInsert (m : String × Node) (members : List (String × Node)) (name : String) :
    (members.orderedInsert byName m).lookup name = (m :: members).lookup name := by
  induction members with
  | nil => rfl
  | cons first members ih =>
    rw [List.orderedInsert_cons]
    split
    · rfl
    · -- a member of the same name would not have been passed over
      rename_i hbehind
      have hne : m.1 ≠ first.1 := fun heq => hbehind (le_of_eq heq)
      rw [List.lookup_cons, ih, List.lookup_cons, List.lookup_cons, List.lookup_cons]
      by_cases hname : name = first.1
      · simp [hname, beq_false_of_ne hne.symm]
      · simp [beq_false_of_ne hname]

/-- A name stands for the same among sorted members. -/
theorem lookup_sortedMembers (members : List (String × Node)) (name : String) :
    (sortedMembers members).lookup name = (members.lookup name).map sorted := by
  induction members with
  | nil => rfl
  | cons m members ih =>
    rw [sortedMembers, lookup_orderedInsert, List.lookup_cons, List.lookup_cons, ih]
    split <;> rfl

/-- A member that is inserted in its order makes the same object as one that is put first. -/
theorem foldl_orderedInsert (m : String × Node) (members : List (String × Node))
    (before : List (String × Json)) :
    (membersToJson (members.orderedInsert byName m)).foldl
        (fun sorted m => Json.insertMember m.1 m.2 sorted) before =
      (membersToJson (m :: members)).foldl
        (fun sorted m => Json.insertMember m.1 m.2 sorted) before := by
  induction members generalizing before with
  | nil => rfl
  | cons first members ih =>
    rw [List.orderedInsert_cons]
    split
    · rfl
    · rename_i hbehind
      have hne : m.1 ≠ first.1 := fun heq => hbehind (le_of_eq heq)
      rw [membersToJson, List.foldl_cons, ih]
      simp only [membersToJson, List.foldl_cons]
      rw [Json.insertMember_comm hne]

end Sorting

mutual

/-- Sorting keeps the JSON. -/
theorem toJson_sorted : (n : Node) → n.sorted.toJson = n.toJson
  | object p members => by
    rw [sorted, toJson, toJson, Json.ofMembers, Json.ofMembers, foldl_sortedMembers members]
  | array p items => by rw [sorted, toJson, toJson, itemsToJson_sortedItems items]
  | scalar p s => rfl

theorem foldl_sortedMembers : (members : List (String × Node)) → (before : List (String × Json)) →
    (membersToJson (sortedMembers members)).foldl
        (fun sorted m => Json.insertMember m.1 m.2 sorted) before =
      (membersToJson members).foldl (fun sorted m => Json.insertMember m.1 m.2 sorted) before
  | [], _ => rfl
  | (name, value) :: members, before => by
    rw [sortedMembers, foldl_orderedInsert, membersToJson, membersToJson, List.foldl_cons,
      List.foldl_cons, toJson_sorted value, foldl_sortedMembers members]

theorem itemsToJson_sortedItems : (items : List Node) →
    itemsToJson (sortedItems items) = itemsToJson items
  | [] => rfl
  | value :: items => by
    rw [sortedItems, itemsToJson, itemsToJson, toJson_sorted value, itemsToJson_sortedItems items]

end

/-! ### Other orders -/

/-- Members of different names are sorted alike in any order. -/
theorem sortedMembers_eq_of_perm {members members' : List (String × Node)}
    (hnames : (members.map (·.1)).Nodup) (h : members.Perm members') :
    sortedMembers members' = sortedMembers members := by
  have hperm : (sortedMembers members').Perm (sortedMembers members) :=
    (sortedMembers_perm members').trans ((h.map _).symm.trans (sortedMembers_perm members).symm)
  have hsorted : ((sortedMembers members).map (·.1)).Nodup := by
    refine ((sortedMembers_perm members).map _).nodup_iff.2 ?_
    rwa [List.map_map]
  -- the names alone are ordered, and they tell the members apart
  refine hperm.eq_of_pairwise (fun m m' hm hm' hle hge => ?_) (pairwise_sortedMembers members')
    (pairwise_sortedMembers members)
  exact List.inj_on_of_nodup_map hsorted (hperm.subset hm) hm' (le_antisymm hle hge)

mutual

/-- Values that differ only in the order of members are sorted alike. -/
theorem Reordered.sorted_eq : {n n' : Node} → n.IsAddressed → n.Reordered n' →
    n'.sorted = n.sorted
  | .object p members, n', haddressed, h => by
    cases haddressed with
    | object _ hnames _ hmembers =>
      cases h with
      | object _ hsame hkept hperm =>
        rw [sorted, sorted, sortedMembers_eq_of_perm (hsame ▸ hnames) hperm,
          sortedMembers_eq hmembers hsame hkept]
  | .array p items, n', haddressed, h => by
    cases haddressed with
    | array _ _ hitems =>
      cases h with
      | array _ h => rw [sorted, sorted, sortedItems_eq hitems h]
  | .scalar p s, n', _, h => by
    cases h
    rfl

theorem sortedMembers_eq : {members kept : List (String × Node)} →
    (∀ m ∈ members, m.2.IsAddressed) → kept.map (·.1) = members.map (·.1) →
      List.Forall₂ (fun m m' => m.2.Reordered m'.2) members kept →
        sortedMembers kept = sortedMembers members
  | [], _, _, _, h => by
    cases h
    rfl
  | (name, value) :: members, _, haddressed, hsame, h => by
    rw [List.forall_mem_cons] at haddressed
    cases h with
    | @cons _ m' _ _ hvalue hmembers =>
      obtain ⟨name', value'⟩ := m'
      obtain ⟨rfl, hnames⟩ := List.cons.inj hsame
      rw [sortedMembers, sortedMembers, hvalue.sorted_eq haddressed.1,
        sortedMembers_eq haddressed.2 hnames hmembers]

theorem sortedItems_eq : {items items' : List Node} → (∀ n ∈ items, n.IsAddressed) →
    List.Forall₂ Reordered items items' → sortedItems items' = sortedItems items
  | [], _, _, h => by
    cases h
    rfl
  | n :: items, _, haddressed, h => by
    rw [List.forall_mem_cons] at haddressed
    cases h with
    | cons hn hitems =>
      rw [sortedItems, sortedItems, hn.sorted_eq haddressed.1, sortedItems_eq haddressed.2 hitems]

end

mutual

/-- A sorted value differs from the value only in the order of members. -/
theorem reordered_sorted : (n : Node) → n.Reordered n.sorted
  | .object p members => by
    rw [sorted]
    refine .object p ?_ (membersReordered_sorted members) (sortedMembers_perm members).symm
    rw [List.map_map]
    rfl
  | .array p items => by
    rw [sorted, sortedItems_eq_map]
    exact .array p (itemsReordered_sorted items)
  | .scalar p s => .scalar p s

theorem membersReordered_sorted : (members : List (String × Node)) →
    List.Forall₂ (fun m m' => m.2.Reordered m'.2) members
      (members.map fun m => (m.1, m.2.sorted))
  | [] => .nil
  | (_, value) :: members => .cons (reordered_sorted value) (membersReordered_sorted members)

theorem itemsReordered_sorted : (items : List Node) →
    List.Forall₂ Reordered items (items.map sorted)
  | [] => .nil
  | n :: items => .cons (reordered_sorted n) (itemsReordered_sorted items)

end

end Node

end DocQuery
