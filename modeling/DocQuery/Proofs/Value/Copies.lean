/-
Copies of a value in other documents.

* `Place.copiedTo_copiedTo_of_ne`, `Node.IsAddressed.copiedTo_copiedTo` — a copy of a copy is a copy
  of the value, if neither is in the document of the value;
* `Node.copiedThrough` — a value that is copied from place to place;
* `Node.copiedThrough_eq` — only the last place matters;
* `Node.copies_compose` — what a copy keeps and what it forgets, at every place inside of it.

Design notes: what a copy refers to is settled at each place for itself, from the reference and the
path that the value has there. All places of a well addressed value are in one document, so what
holds of one place that is copied abroad holds of all of them.
-/
import DocQuery.Proofs.Directive.Copying
import DocQuery.Proofs.Directive.Provenance

namespace DocQuery

/-- A copy in another document keeps the reference, so the next copy has nothing to add. -/
theorem Place.copiedTo_copiedTo_of_ne (p : Place) {q r : Path}
    (hq : p.path.document ≠ q.document) (hr : p.path.document ≠ r.document) :
    (p.copiedTo q).copiedTo r = p.copiedTo r := by
  rw [copiedTo, copiedTo, copiedTo, if_neg hq, if_neg hr]
  cases p.source <;> rfl

namespace Node

variable {v : Node}

/-- Copies of copies of items are copies of the items, if that holds of each of them. -/
theorem copyItems_copyItems_of {q r : Path} {ns : List Node} (h : ∀ n ∈ ns, ∀ i,
    (n.copiedTo (q.item i)).copiedTo (r.item i) = n.copiedTo (r.item i)) (index : Nat) :
    copyItems r index (copyItems q index ns) = copyItems r index ns := by
  induction ns generalizing index with
  | nil => rfl
  | cons n ns ih =>
    obtain ⟨hn, hall⟩ := List.forall_mem_cons.1 h
    rw [copyItems, copyItems, copyItems, hn, ih hall]

/-- A copy of a copy is a copy of the value, if neither is in the document of the value. -/
theorem IsAddressed.copiedTo_copiedTo (h : v.IsAddressed) {q r : Path}
    (hq : v.path.document ≠ q.document) (hr : v.path.document ≠ r.document) :
    (v.copiedTo q).copiedTo r = v.copiedTo r := by
  induction h generalizing q r with
  | @object p ms _ hpaths _ ih =>
    have hmembers : copyMembers r (copyMembers q ms) = copyMembers r ms := by
      rw [copyMembers_eq, copyMembers_eq, copyMembers_eq, List.map_map]
      refine List.map_congr_left fun m hm => Prod.ext rfl ?_
      have hdocument : m.2.path.document = p.path.document := by rw [hpaths m hm]; rfl
      exact ih m hm (hdocument ▸ hq) (hdocument ▸ hr)
    rw [copiedTo, copiedTo, copiedTo, p.copiedTo_copiedTo_of_ne hq hr, hmembers]
  | @array p ns hpaths _ ih =>
    have hitems : copyItems r 0 (copyItems q 0 ns) = copyItems r 0 ns := by
      refine copyItems_copyItems_of (fun n hn i => ?_) 0
      obtain ⟨j, hj⟩ := List.mem_iff_getElem?.1 hn
      have hdocument : n.path.document = p.path.document := by rw [hpaths j n hj]; rfl
      exact ih n hn (hdocument ▸ hq) (hdocument ▸ hr)
    rw [copiedTo, copiedTo, copiedTo, p.copiedTo_copiedTo_of_ne hq hr, hitems]
  | scalar p s => rw [copiedTo, copiedTo, copiedTo, p.copiedTo_copiedTo_of_ne hq hr]

/-- A value that is copied to each of some places, from the last place to the next one. -/
def copiedThrough (v : Node) (places : List Path) : Node :=
  places.foldl (fun n p => n.copiedTo p) v

theorem copiedThrough_concat (v : Node) (before : List Path) (p : Path) :
    v.copiedThrough (before ++ [p]) = (v.copiedThrough before).copiedTo p :=
  List.foldl_concat _ _ _ _

/-- Of the places in other documents that a value is copied through, only the last one matters. -/
theorem copiedThrough_eq (h : v.IsAddressed) {before : List Path} {p : Path}
    (habroad : ∀ q ∈ before ++ [p], v.path.document ≠ q.document) :
    v.copiedThrough (before ++ [p]) = v.copiedTo p := by
  induction before using List.reverseRecOn generalizing p with
  | nil => rfl
  | append_singleton before q ih =>
    obtain ⟨hbefore, hp⟩ := List.forall_mem_append.1 habroad
    have hq := hbefore q (by simp)
    rw [copiedThrough_concat, ih hbefore]
    exact h.copiedTo_copiedTo hq (hp p List.mem_cons_self)

theorem firstPath_copiedTo {n : Node} {p : Path} (h : n.path.document ≠ p.document) :
    (n.copiedTo p).firstPath = n.firstPath := by
  rw [firstPath, source_copiedTo, if_neg h, firstPath]
  cases n.place.source <;> rfl

/-- However often a value is copied abroad, everything in it keeps its first path. -/
theorem firstPath_copiedThrough (h : v.IsAddressed) {places : List Path}
    (habroad : ∀ q ∈ places, v.path.document ≠ q.document) (keys : List Key) :
    ((v.copiedThrough places).at? keys).map firstPath = (v.at? keys).map firstPath := by
  rcases List.eq_nil_or_concat' places with rfl | ⟨before, p, rfl⟩
  · rfl
  rw [copiedThrough_eq h habroad, at?_copiedTo]
  rcases hat : v.at? keys with _ | n
  · rfl
  · have hpath := (h.at? hat).1
    refine congrArg some (firstPath_copiedTo ?_)
    rw [hpath]
    exact habroad p (by simp)

/-- What stands in a copy refers to where the value referred to, or else to where it stood, unless
the copy is in the same document. -/
theorem place_at?_copiedTo (h : v.IsAddressed) (p : Path) (keys : List Key) :
    ((v.copiedTo p).at? keys).map place = (v.at? keys).map fun n =>
      ⟨⟨p.document, p.keys ++ keys⟩, n.place.source.or
        (if v.path.document = p.document then none
          else some ⟨v.path.document, v.path.keys ++ keys⟩)⟩ := by
  rw [at?_copiedTo]
  rcases hat : v.at? keys with _ | n
  · rfl
  · have hpath : n.place.path = ⟨v.path.document, v.path.keys ++ keys⟩ := (h.at? hat).1
    have hplace : (n.copiedTo ⟨p.document, p.keys ++ keys⟩).place =
        n.place.copiedTo ⟨p.document, p.keys ++ keys⟩ := by cases n <;> rfl
    rw [Option.map_some, Option.map_some, Option.map_some, hplace, Place.copiedTo, hpath]

/-- Copies compose. A copy is the same JSON, well addressed from its new path on, and everything in
it refers to where it referred to before, or else to where it stood, if that is in another document.
A copy of a copy abroad is a copy of the value, so that everything in it keeps its first path,
however often it is copied on. -/
theorem copies_compose (h : v.IsAddressed) :
    (∀ p : Path, (v.copiedTo p).toJson = v.toJson ∧ (v.copiedTo p).path = p ∧
      (v.copiedTo p).IsAddressed ∧
      ∀ keys, ((v.copiedTo p).at? keys).map place = (v.at? keys).map fun n =>
        ⟨⟨p.document, p.keys ++ keys⟩, n.place.source.or
          (if v.path.document = p.document then none
            else some ⟨v.path.document, v.path.keys ++ keys⟩)⟩) ∧
    (∀ p q : Path, v.path.document ≠ p.document → v.path.document ≠ q.document →
      (v.copiedTo p).copiedTo q = v.copiedTo q) ∧
    ∀ places : List Path, (∀ p ∈ places, v.path.document ≠ p.document) →
      ∀ keys, ((v.copiedThrough places).at? keys).map firstPath = (v.at? keys).map firstPath :=
  ⟨fun p => ⟨v.toJson_copiedTo p, v.path_copiedTo p, v.isAddressed_copiedTo p h,
      place_at?_copiedTo h p⟩,
    fun _ _ hp hq => h.copiedTo_copiedTo hp hq, fun _ => firstPath_copiedThrough h⟩

/-- A value with a reference and one without, in an object that was never copied. -/
def mixedOrigins : Node :=
  .object (.at (.root "D")) [
    ("A", .array ⟨(Path.root "D").member "A", some ((Path.root "P").member "X")⟩ [
      .scalar ⟨((Path.root "D").member "A").item 0, some (((Path.root "P").member "X").item 0)⟩
        .null]),
    ("B", .scalar (.at ((Path.root "D").member "B")) (.quoted "b"))]

theorem mixedOrigins_isAddressed : mixedOrigins.IsAddressed := by
  refine .object _ (by decide) ?_ ?_
  · intro m hm
    fin_cases hm <;> rfl
  · intro m hm
    fin_cases hm
    · refine .array _ (fun i n hn => ?_) (fun n hn => ?_)
      · rcases i with _ | i
        · obtain rfl := Option.some.inj hn
          rfl
        · cases hn
      · obtain rfl := List.mem_singleton.1 hn
        exact .scalar _ _
    · exact .scalar _ _

theorem copies_compose_mixed :
    mixedOrigins.IsAddressed ∧ "D" ≠ "E" ∧ "D" ≠ "F" ∧
      (mixedOrigins.copiedTo (.root "E")).copiedTo (.root "F") = mixedOrigins.copiedTo (.root "F") ∧
      ((mixedOrigins.copiedThrough [.root "E", .root "F"]).at? [.member "A", .item 0]).map
        firstPath = some (((Path.root "P").member "X").item 0) ∧
      ((mixedOrigins.copiedTo (.root "E")).at? [.member "B"]).map place =
        some ⟨(Path.root "E").member "B", some ((Path.root "D").member "B")⟩ := by
  obtain ⟨hcopy, htwice, hfirst⟩ := copies_compose mixedOrigins_isAddressed
  have hE : mixedOrigins.path.document ≠ (Path.root "E").document := by decide
  have hF : mixedOrigins.path.document ≠ (Path.root "F").document := by decide
  refine ⟨mixedOrigins_isAddressed, by decide, by decide, htwice _ _ hE hF, ?_, ?_⟩
  · refine (hfirst [.root "E", .root "F"] ?_ [.member "A", .item 0]).trans rfl
    intro p hp
    fin_cases hp
    · exact hE
    · exact hF
  · exact ((hcopy (.root "E")).2.2.2 [.member "B"]).trans rfl

end Node

end DocQuery
