/-
The value that a draft has become.

* `Node.at?` — what stands at a place of a value;
* `Draft.freezeFrom_object`, `Draft.freezeFrom_array` — containers hold the values of their entries;
* `Draft.IsTree.at?_freeze` — where keys lead to a cell, the value of that cell stands.
-/
import DocQuery.Proofs.Draft.Write

namespace DocQuery

/-- What stands where the keys lead from a value, if anything does. -/
def Node.at? : Node → List Key → Option Node
  | n, [] => some n
  | n, .member name :: keys => (n.member? name).bind fun m => m.at? keys
  | n, .item index :: keys => (n.items?.bind fun items => items[index]?).bind fun m => m.at? keys

theorem Node.path_copiedTo (n : Node) (path : Path) : (n.copiedTo path).path = path := by
  cases n <;> rfl

namespace Draft

variable {d : Draft} {n id child fuel : Nat} {c : Content} {path : Path} {key : Key}
  {keys : List Key}

/-- A cell to which keys lead holds something. -/
theorem IsTree.exists_content (h : d.IsTree n) (hleads : d.Leads d.root keys id) :
    ∃ c, d.content? id = some c := by
  have hlt : id < d.cells.size := by
    rcases keys.eq_nil_or_concat' with rfl | ⟨keys, key, rfl⟩
    · rw [h.leads_target hleads (.here d.root)]
      exact Nat.lt_of_lt_of_le h.root_lt h.size_le
    · obtain ⟨owner, _, he⟩ := hleads.exists_owner
      have hlt := h.target_lt he
      exact hlt
  exact ⟨_, by rw [content?, Array.getElem?_eq_getElem hlt, Option.map_some]⟩

theorem path_freezeFrom (d : Draft) (fuel : Nat) (path : Path) (id : Nat) :
    (d.freezeFrom fuel path id).path = path := by
  cases fuel with
  | zero => rfl
  | succ fuel =>
    rw [freezeFrom]
    split
    · rfl
    · rfl
    · rfl
    · split
      · assumption
      · exact Node.path_copiedTo _ _
    · rfl

theorem putMember_of_not_mem {name : String} {value : Node} {members : List (String × Node)}
    (h : name ∉ members.map (·.1)) : putMember name value members = members ++ [(name, value)] := by
  induction members with
  | nil => rfl
  | cons m members ih =>
    rw [List.map_cons, List.mem_cons, not_or] at h
    rw [putMember, if_neg (Ne.symm h.1), ih h.2]
    rfl

/-- Members whose names differ stay as they are. -/
theorem foldl_putMember {earlier members : List (String × Node)}
    (h : ((earlier ++ members).map (·.1)).Nodup) :
    members.foldl (fun earlier m => putMember m.1 m.2 earlier) earlier = earlier ++ members := by
  induction members generalizing earlier with
  | nil => simp
  | cons m members ih =>
    have hfresh : m.1 ∉ earlier.map (·.1) := by
      rw [List.map_append, List.map_cons, List.nodup_append] at h
      exact fun hin => h.2.2 m.1 hin m.1 List.mem_cons_self rfl
    rw [List.foldl_cons, putMember_of_not_mem hfresh, ih (by simpa using h)]
    simp

theorem freezeFrom_object {members : List (String × Nat)}
    (hc : d.content? id = some (.object members)) (hnames : (members.map (·.1)).Nodup) :
    d.freezeFrom (fuel + 1) path id =
      .object (.at path)
        (members.map fun m => (m.1, d.freezeFrom fuel (path.member m.1) m.2)) := by
  rw [freezeFrom, hc]
  simp only
  rw [foldl_putMember (by simpa [Function.comp_def] using hnames), List.nil_append]

theorem IsTree.freezeFrom_object (h : d.IsTree n) {members : List (String × Nat)}
    (hc : d.content? id = some (.object members)) :
    d.freezeFrom (fuel + 1) path id =
      .object (.at path)
        (members.map fun m => (m.1, d.freezeFrom fuel (path.member m.1) m.2)) :=
  Draft.freezeFrom_object hc (h.names_nodup hc)

theorem freezeFrom_array {items : List Nat} (hc : d.content? id = some (.array items)) :
    d.freezeFrom (fuel + 1) path id =
      .array (.at path)
        (items.zipIdx.map fun i => d.freezeFrom fuel (path.item i.2) i.1) := by
  rw [freezeFrom, hc]

theorem freezeFrom_scalar {s : Scalar} (hc : d.content? id = some (.scalar s)) :
    d.freezeFrom (fuel + 1) path id = .scalar (.at path) s := by
  rw [freezeFrom, hc]

theorem freezeFrom_imported {v : Node} (hc : d.content? id = some (.imported v)) :
    d.freezeFrom (fuel + 1) path id = if v.path = path then v else v.copiedTo path := by
  rw [freezeFrom, hc]

/-- The value of an entry stands in the value of its container. -/
theorem IsTree.at?_freezeFrom_entry (h : d.IsTree n) (he : (key, child) ∈ d.entries id)
    (keys : List Key) :
    (d.freezeFrom (fuel + 1) path id).at? (key :: keys) =
      (d.freezeFrom fuel (path.child key) child).at? keys := by
  rcases hc : d.content? id with _ | c
  · simp [entries_of_none hc] at he
  · rw [entries_of_content? hc] at he
    rcases c with members | items | _ | _
    · -- names differ, so the lookup of a name finds the member that the entry is about
      obtain ⟨m, hm, heq⟩ := List.mem_map.1 he
      obtain ⟨rfl, rfl⟩ := Prod.mk.injEq .. ▸ heq
      have hlookup : (members.map fun m => (m.1, d.freezeFrom fuel (path.member m.1) m.2)).lookup
          m.1 = some (d.freezeFrom fuel (path.member m.1) m.2) := by
        obtain ⟨before, after, rfl⟩ := List.append_of_mem hm
        have hnot : m.1 ∉ before.map (·.1) := not_mem_of_names_nodup (h.names_nodup hc)
        rw [List.lookup_eq_some_iff]
        refine ⟨_, _, by rw [List.map_append, List.map_cons], ?_⟩
        intro p hp
        obtain ⟨m', hm', rfl⟩ := List.mem_map.1 hp
        rw [bne_iff_ne]
        exact fun heq => hnot (List.mem_map.2 ⟨m', hm', heq.symm⟩)
      rw [h.freezeFrom_object hc, Node.at?, Node.member?]
      simp only [Node.members?, Option.bind_some, hlookup]
      rfl
    · obtain ⟨⟨item, index⟩, hitem, heq⟩ := List.mem_map.1 he
      obtain ⟨rfl, rfl⟩ := Prod.mk.injEq .. ▸ heq
      rw [freezeFrom_array hc, Node.at?]
      rw [List.mem_zipIdx_iff_getElem?] at hitem
      simp [Node.items?, hitem, Path.item]
    · simp [Content.entries] at he
    · simp [Content.entries] at he

/-- Where keys lead to a cell, the value of that cell stands. -/
theorem IsTree.at?_freezeFrom (h : d.IsTree n) (path : Path) (hf : Enough n d fuel id)
    (hleads : d.Leads id keys child) :
    ∃ rest, Enough n d (rest + 1) child ∧
      (d.freezeFrom fuel path id).at? keys =
        some (d.freezeFrom (rest + 1) ⟨path.document, path.keys ++ keys⟩ child) := by
  induction hleads generalizing fuel path with
  | here id =>
    obtain ⟨fuel, rfl⟩ := Nat.exists_eq_succ_of_ne_zero (Nat.pos_iff_ne_zero.1 hf.1)
    refine ⟨fuel, hf, ?_⟩
    rw [Node.at?, List.append_nil]
  | @down id middle last key keys he _ ih =>
    obtain ⟨fuel, rfl⟩ := Nat.exists_eq_succ_of_ne_zero (Nat.pos_iff_ne_zero.1 hf.1)
    obtain ⟨rest, hrest, heq⟩ := ih (path.child key) (h.enough_child hf he)
    refine ⟨rest, hrest, ?_⟩
    rw [h.at?_freezeFrom_entry he, heq, Path.child]
    simp

/-- Where keys lead to a cell of the document, the value of that cell stands. -/
theorem IsTree.at?_freeze (h : d.IsTree n) (hleads : d.Leads d.root keys child)
    (document : String) :
    ∃ rest, Enough n d (rest + 1) child ∧
      (d.freeze document).at? keys = some (d.freezeFrom (rest + 1) ⟨document, keys⟩ child) := by
  obtain ⟨rest, hrest, heq⟩ := h.at?_freezeFrom (.root document) h.enough_root hleads
  exact ⟨rest, hrest, heq⟩

end Draft

end DocQuery
