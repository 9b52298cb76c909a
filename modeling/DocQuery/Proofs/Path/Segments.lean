/-
Paths as their pieces.

* `Segment.keys`, `Path.IsPacked` — the keys of a piece, and lists of pieces in which no two
  neighbours could be one;
* `Path.segmentsOf_flatMap_keys`, `Path.flatMap_keys_segmentsOf` — such a list and the keys in it
  determine each other;
* `Path.extendSegments`, `Path.shortenSegments?` — one key more or less at the end of the pieces;
* `Path.HasPieces` — the pieces that one gets by going inward and outward from the root;
* `Path.paths_are_lists_of_keys` — such pieces are those of the path, and all that is asked of paths
  is an answer about their keys.

Design notes: pieces that are packed are the only packed ones with their keys. So what a step does
to the pieces need not be compared with a piece list made afresh: it is enough that the step leaves
the pieces packed and does the right thing to the keys.
-/
import Mathlib.Data.List.Chain
import DocQuery.Proofs.Path.Relation

namespace DocQuery

namespace Segment

/-- The keys that a piece stands for. -/
def keys : Segment → List Key
  | member name => [.member name]
  | items indexes => indexes.map .item

/-- Whether a piece consists of positions. -/
def isItems : Segment → Bool
  | member _ => false
  | items _ => true

end Segment

namespace Path

/-! ### Packed pieces -/

/-- Whether no piece is empty, and no two neighbours are positions that could share their
brackets. -/
structure IsPacked (ss : List Segment) : Prop where
  filled : ∀ s ∈ ss, s ≠ .items []
  apart : ss.IsChain fun s t => ¬ (s.isItems ∧ t.isItems)

theorem isPacked_nil : IsPacked [] := ⟨nofun, .nil⟩

theorem isPacked_append {ss tt : List Segment} : IsPacked (ss ++ tt) ↔
    IsPacked ss ∧ IsPacked tt ∧ ∀ s ∈ ss.getLast?, ∀ t ∈ tt.head?, ¬ (s.isItems ∧ t.isItems) := by
  constructor
  · rintro ⟨hfilled, hapart⟩
    rw [List.forall_mem_append] at hfilled
    obtain ⟨hleft, hright, hbetween⟩ := List.isChain_append.1 hapart
    exact ⟨⟨hfilled.1, hleft⟩, ⟨hfilled.2, hright⟩, hbetween⟩
  · rintro ⟨⟨hleft, hleft'⟩, ⟨hright, hright'⟩, hbetween⟩
    exact ⟨List.forall_mem_append.2 ⟨hleft, hright⟩,
      List.isChain_append.2 ⟨hleft', hright', hbetween⟩⟩

theorem isPacked_singleton {s : Segment} : IsPacked [s] ↔ s ≠ .items [] :=
  ⟨fun h => h.filled s List.mem_cons_self,
    fun h => ⟨List.forall_mem_singleton.2 h, .singleton s⟩⟩

theorem isPacked_cons {s : Segment} {ss : List Segment} : IsPacked (s :: ss) ↔
    s ≠ .items [] ∧ IsPacked ss ∧ ∀ t ∈ ss.head?, ¬ (s.isItems ∧ t.isItems) := by
  rw [← List.singleton_append, isPacked_append, isPacked_singleton, List.getLast?_singleton]
  simp only [Option.mem_some_iff, forall_eq']

/-- The keys of the pieces of a list of keys are the keys. -/
theorem flatMap_keys_segmentsOf (keys : List Key) :
    (segmentsOf keys).flatMap Segment.keys = keys := by
  induction keys with
  | nil => rfl
  | cons key keys ih =>
    cases key with
    | member name => rw [segmentsOf, List.flatMap_cons, ih, Segment.keys, List.singleton_append]
    | item index =>
      rw [segmentsOf]
      split
      · rename_i indexes rest hrest
        rw [hrest] at ih
        rw [List.flatMap_cons, Segment.keys, List.map_cons, List.cons_append, ← ih]
        rfl
      · rw [List.flatMap_cons, ih]
        rfl

theorem isPacked_segmentsOf (keys : List Key) : IsPacked (segmentsOf keys) := by
  induction keys with
  | nil => exact isPacked_nil
  | cons key keys ih =>
    cases key with
    | member name =>
      rw [segmentsOf]
      refine isPacked_cons.2 ⟨nofun, ih, ?_⟩
      rintro t - ⟨⟨⟩, -⟩
    | item index =>
      rw [segmentsOf]
      split
      · rename_i indexes rest hrest
        rw [hrest] at ih
        obtain ⟨-, hpacked, hbetween⟩ := isPacked_cons.1 ih
        refine isPacked_cons.2 ⟨nofun, hpacked, ?_⟩
        rintro t ht ⟨-, hitems⟩
        exact hbetween t ht ⟨rfl, hitems⟩
      · rename_i hhead
        refine isPacked_cons.2 ⟨nofun, ih, ?_⟩
        rintro (name | indexes) ht ⟨-, hitems⟩
        · cases hitems
        · obtain ⟨rest, hrest⟩ := List.head?_eq_some_iff.1 ht
          exact hhead indexes rest hrest

/-- Positions before a list of keys are one piece, unless that list begins with a position. -/
theorem segmentsOf_map_item {indexes : List Nat} (hne : indexes ≠ []) {keys : List Key}
    (hhead : ∀ s ∈ (segmentsOf keys).head?, ¬ s.isItems) :
    segmentsOf (indexes.map .item ++ keys) = .items indexes :: segmentsOf keys := by
  induction indexes with
  | nil => exact absurd rfl hne
  | cons index indexes ih =>
    rw [List.map_cons, List.cons_append, segmentsOf]
    by_cases hmore : indexes = []
    · subst hmore
      rw [List.map_nil, List.nil_append]
      split
      · rename_i hrest
        rw [hrest] at hhead
        exact absurd rfl (hhead _ rfl)
      · rfl
    -- the position joins the piece that the others have made
    · rw [ih hmore]

/-- Packed pieces are those of their keys. -/
theorem segmentsOf_flatMap_keys {ss : List Segment} (h : IsPacked ss) :
    segmentsOf (ss.flatMap Segment.keys) = ss := by
  induction ss with
  | nil => rfl
  | cons s ss ih =>
    obtain ⟨hs, hpacked, hbetween⟩ := isPacked_cons.1 h
    rw [List.flatMap_cons]
    cases s with
    | member name => rw [Segment.keys, List.singleton_append, segmentsOf, ih hpacked]
    | items indexes =>
      have hne : indexes ≠ [] := by
        rintro rfl
        exact hs rfl
      rw [Segment.keys, segmentsOf_map_item hne, ih hpacked]
      intro t ht hitems
      rw [ih hpacked] at ht
      exact hbetween t ht ⟨rfl, hitems⟩

/-- Packed pieces with the keys of a path are its pieces. -/
theorem eq_segments {p : Path} {ss : List Segment} (h : IsPacked ss)
    (hkeys : ss.flatMap Segment.keys = p.keys) : ss = p.segments := by
  rw [segments, ← hkeys, segmentsOf_flatMap_keys h]

/-! ### Pieces step by step -/

/-- Pieces with one key more. A position joins the positions at the end. -/
def extendSegments (ss : List Segment) : Key → List Segment
  | .member name => ss ++ [.member name]
  | .item index =>
    match ss.getLast? with
    | some (.items indexes) => ss.dropLast ++ [.items (indexes ++ [index])]
    | _ => ss ++ [.items [index]]

/-- Pieces without their last key, if there is one. The last of several positions leaves the others
in their brackets. -/
def shortenSegments? (ss : List Segment) : Option (List Segment) :=
  match ss.getLast? with
  | none => none
  | some (.member _) => some ss.dropLast
  | some (.items indexes) =>
    some (if 1 < indexes.length then ss.dropLast ++ [.items indexes.dropLast] else ss.dropLast)

section Steps

variable {ss : List Segment}

theorem extendSegments_concat_items (indexes : List Nat) (index : Nat) :
    extendSegments (ss ++ [.items indexes]) (.item index) =
      ss ++ [.items (indexes ++ [index])] := by
  simp [extendSegments]

theorem extendSegments_of_not_isItems (h : ∀ s ∈ ss.getLast?, ¬ s.isItems) (index : Nat) :
    extendSegments ss (.item index) = ss ++ [.items [index]] := by
  rw [extendSegments]
  split
  · rename_i hlast
    exact absurd rfl (h _ hlast)
  · rfl

/-- One key more leaves the pieces packed, and comes behind their keys. -/
theorem extendSegments_spec (h : IsPacked ss) (key : Key) :
    IsPacked (extendSegments ss key) ∧
      (extendSegments ss key).flatMap Segment.keys = ss.flatMap Segment.keys ++ [key] := by
  cases key with
  | member name =>
    refine ⟨isPacked_append.2 ⟨h, isPacked_singleton.2 nofun, ?_⟩, ?_⟩
    · rintro s - _ ⟨⟩ ⟨-, ⟨⟩⟩
    · rw [extendSegments, List.flatMap_append]
      rfl
  | item index =>
    rcases List.eq_nil_or_concat' ss with rfl | ⟨before, last, rfl⟩
    · exact ⟨isPacked_singleton.2 nofun, rfl⟩
    cases last with
    | member name =>
      rw [extendSegments_of_not_isItems (by simp [Segment.isItems])]
      refine ⟨isPacked_append.2 ⟨h, isPacked_singleton.2 nofun, ?_⟩, ?_⟩
      · simp [Segment.isItems]
      · rw [List.flatMap_append]
        rfl
    | items indexes =>
      obtain ⟨hbefore, -, hbetween⟩ := isPacked_append.1 h
      rw [extendSegments_concat_items]
      refine ⟨isPacked_append.2 ⟨hbefore, isPacked_singleton.2 (by simp), ?_⟩, ?_⟩
      · rintro s hs _ ⟨⟩ hitems
        exact hbetween s hs _ rfl hitems
      · simp [Segment.keys]

/-- One key less takes the last key away. -/
theorem shortenSegments?_extendSegments (h : IsPacked ss) (key : Key) :
    shortenSegments? (extendSegments ss key) = some ss := by
  cases key with
  | member name => simp [shortenSegments?, extendSegments]
  | item index =>
    rcases List.eq_nil_or_concat' ss with rfl | ⟨before, last, rfl⟩
    · rfl
    cases last with
    | member name => simp [shortenSegments?, extendSegments]
    | items indexes =>
      have hne : indexes ≠ [] := by
        rintro rfl
        exact h.filled (.items []) (by simp) rfl
      rw [extendSegments_concat_items]
      simp [shortenSegments?, List.length_pos_iff.2 hne]

end Steps

/-! ### Paths step by step -/

section Paths

variable (p : Path) (key : Key)

theorem parent?_root (document : String) : (root document).parent? = none := rfl

/-- The container of what lies one key further in. -/
theorem parent?_child : (p.child key).parent? = some p := by
  simp [parent?, child]

theorem eq_root_or_child : p = root p.document ∨ ∃ q key, p = child q key := by
  obtain ⟨document, keys⟩ := p
  rcases List.eq_nil_or_concat' keys with rfl | ⟨before, last, rfl⟩
  · exact .inl rfl
  · exact .inr ⟨⟨document, before⟩, last, rfl⟩

theorem parent?_eq_none_iff : p.parent? = none ↔ p = root p.document := by
  constructor
  · intro h
    rcases p.eq_root_or_child with hroot | ⟨q, key, rfl⟩
    · exact hroot
    · rw [parent?_child] at h
      cases h
  · intro h
    rw [h]
    exact parent?_root _

theorem segments_child : (p.child key).segments = extendSegments p.segments key := by
  obtain ⟨hpacked, hkeys⟩ := extendSegments_spec (isPacked_segmentsOf p.keys) key
  rw [flatMap_keys_segmentsOf] at hkeys
  exact (eq_segments hpacked hkeys).symm

theorem shortenSegments?_segments :
    shortenSegments? p.segments = p.parent?.map segments := by
  rcases p.eq_root_or_child with hroot | ⟨q, key, rfl⟩
  · rw [hroot]
    rfl
  · rw [segments_child, parent?_child]
    exact shortenSegments?_extendSegments (isPacked_segmentsOf q.keys) key

end Paths

/-- Whether one comes to a path with these pieces by going inward and outward from a root, in any
order. -/
inductive HasPieces : Path → List Segment → Prop
  | root (document : String) : HasPieces (.root document) []
  | child {p : Path} {ss : List Segment} : HasPieces p ss →
    ∀ key, HasPieces (p.child key) (extendSegments ss key)
  | parent {p q : Path} {ss tt : List Segment} : HasPieces p ss → p.parent? = some q →
    shortenSegments? ss = some tt → HasPieces q tt

/-- Whatever the way to a path, its pieces are the same. -/
theorem hasPieces_iff {p : Path} {ss : List Segment} : HasPieces p ss ↔ ss = p.segments := by
  constructor
  · intro h
    induction h with
    | root document => rfl
    | @child p ss _ key ih => rw [ih, segments_child]
    | @parent p q ss tt _ hq htt ih =>
      rw [ih, shortenSegments?_segments, hq] at htt
      exact (Option.some.inj htt).symm
  · rintro rfl
    obtain ⟨document, keys⟩ := p
    induction keys using List.reverseRecOn with
    | nil => exact .root document
    | append_singleton keys key ih =>
      rw [show Path.mk document (keys ++ [key]) = child ⟨document, keys⟩ key from rfl,
        segments_child]
      exact ih.child key

/-- Paths are documents with lists of keys: going inward and outward adds and removes the last key,
paths with the same keys are the same, and they lie to each other as their keys do. Neighbouring
positions that share their brackets do not change this: the pieces of a path are the same whatever
the way to it, keep all its keys apart, and go inward and outward with it. -/
theorem paths_are_lists_of_keys :
    (∀ (p : Path) (key : Key), (p.child key).parent? = some p ∧
      (p.child key).segments = extendSegments p.segments key) ∧
    (∀ p : Path, (p.parent? = none ↔ p = root p.document) ∧
      shortenSegments? p.segments = p.parent?.map segments ∧
      p.segments.flatMap Segment.keys = p.keys) ∧
    (∀ (p : Path) (ss : List Segment), HasPieces p ss ↔ ss = p.segments) ∧
    (∀ p q : Path, (p = q ↔ p.document = q.document ∧ p.keys = q.keys) ∧
      (p = q ↔ p.document = q.document ∧ p.segments = q.segments)) ∧
    ∀ p q : Path,
      (p.compare q = .equal ↔ p = q) ∧
      (p.compare q = .child ↔
        p.document = q.document ∧ q.keys <+: p.keys ∧ q.keys ≠ p.keys) ∧
      (p.compare q = .parent ↔
        p.document = q.document ∧ p.keys <+: q.keys ∧ p.keys ≠ q.keys) ∧
      (p.compare q = .sibling ↔ p.document = q.document ∧ AreBeside p.keys q.keys) ∧
      (p.compare q = .unrelated ↔ p.document ≠ q.document ∨
        ¬ q.keys <+: p.keys ∧ ¬ p.keys <+: q.keys ∧ ¬ AreBeside p.keys q.keys) ∧
      q.compare p = (p.compare q).swap := by
  refine ⟨fun p key => ⟨p.parent?_child key, p.segments_child key⟩,
    fun p => ⟨p.parent?_eq_none_iff, p.shortenSegments?_segments, flatMap_keys_segmentsOf p.keys⟩,
    fun p ss => hasPieces_iff, fun p q => ⟨eq_iff, ?_⟩, fun p q => ⟨p.compare_eq_equal_iff q,
      p.compare_eq_child_iff q, p.compare_eq_parent_iff q, p.compare_eq_sibling_iff q,
      p.compare_eq_unrelated_iff q, p.compare_swap q⟩⟩
  -- pieces keep the keys, so equal pieces are those of equal paths
  constructor
  · rintro rfl
    exact ⟨rfl, rfl⟩
  · rintro ⟨hdocument, hsegments⟩
    have hkeys := congrArg (List.flatMap Segment.keys) hsegments
    rw [segments, segments, flatMap_keys_segmentsOf, flatMap_keys_segmentsOf] at hkeys
    exact eq_iff.2 ⟨hdocument, hkeys⟩

/-- Three positions behind a name share their brackets, and two steps outward leave one of them. -/
example : (((((root "D").member "A").item 1).item 0).item 2).segments =
      [.member "A", .items [1, 0, 2]] ∧
    (shortenSegments? [.member "A", .items [1, 0, 2]]).bind shortenSegments? =
      some [.member "A", .items [1]] := by
  decide

end Path

end DocQuery
