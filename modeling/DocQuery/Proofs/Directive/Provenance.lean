/-
Where copied values come from.

* `Node.at?_copiedTo` — what stands in a copy is a copy of what stands in the value;
* `Origin` — a path leads to a value of one of the pages, and from there a value may have come;
* `Truthful` — every reference in a page has its origin among the pages behind it;
* `Correspondence.truthful` — values whose copies will have truthful references;
* `Engine.references_lead_to_ancestors` — documents of a chain and answers are truthful;
* `Engine.computed_value_refers` — a reference may stand for a value that was never copied.

Design notes: a value that has not been copied yet has no reference, but will refer to its own path
if it is copied, so the invariant speaks of both. What a projection computes is placed where the
item is, in whatever document that may be. Such a value is a scalar, and a copy of it refers to the
item: so a scalar is only known to refer to some value, whereas an object or an array is what its
reference leads to.
-/
import DocQuery.Proofs.Chain.Ancestry
import DocQuery.Proofs.Directive.Addresses
import DocQuery.Proofs.Value.Placing

namespace DocQuery

/-! ### Copies -/

namespace Node

theorem lookup_copyMembers (path : Path) (name : String) (ms : List (String × Node)) :
    (copyMembers path ms).lookup name =
      (ms.lookup name).map fun n => n.copiedTo (path.member name) := by
  induction ms with
  | nil => rfl
  | cons m ms ih =>
    obtain ⟨k, n⟩ := m
    rw [copyMembers, List.lookup_cons, List.lookup_cons, ih]
    rcases hname : name == k with _ | _
    · rfl
    · rw [beq_iff_eq.1 hname]
      rfl

theorem getElem?_copyItems (path : Path) (index i : Nat) (ns : List Node) :
    (copyItems path index ns)[i]? = ns[i]?.map fun n => n.copiedTo (path.item (index + i)) := by
  induction ns generalizing index i with
  | nil => rfl
  | cons n ns ih =>
    rw [copyItems]
    rcases i with _ | i
    · rfl
    · rw [List.getElem?_cons_succ, List.getElem?_cons_succ, ih, Nat.add_assoc, Nat.add_comm 1 i]

/-- What stands in a copy is a copy of what stands in the value. -/
theorem at?_copiedTo (n : Node) (path : Path) (keys : List Key) :
    (n.copiedTo path).at? keys =
      (n.at? keys).map fun m => m.copiedTo ⟨path.document, path.keys ++ keys⟩ := by
  induction keys generalizing n path with
  | nil =>
    rw [at?, at?, List.append_nil]
    rfl
  | cons key keys ih =>
    have hkeys : (path.child key).keys ++ keys = path.keys ++ key :: keys := by
      rw [Path.child, List.append_assoc]
      rfl
    cases key with
    | member name =>
      cases n with
      | object p ms =>
        show ((copyMembers path ms).lookup name).bind _ = ((ms.lookup name).bind _).map _
        rw [lookup_copyMembers]
        rcases ms.lookup name with _ | m
        · rfl
        · show (m.copiedTo (path.member name)).at? keys = _
          rw [ih, ← hkeys]
          rfl
      | array => rfl
      | scalar => rfl
    | item index =>
      cases n with
      | object => rfl
      | array p ns =>
        show ((copyItems path 0 ns)[index]?).bind _ = (ns[index]?.bind _).map _
        rw [getElem?_copyItems, Nat.zero_add]
        rcases ns[index]? with _ | m
        · rfl
        · show (m.copiedTo (path.item index)).at? keys = _
          rw [ih, ← hkeys]
          rfl
      | scalar => rfl

theorem scalar?_copiedTo (n : Node) (path : Path) : (n.copiedTo path).scalar? = n.scalar? := by
  cases n <;> rfl

theorem source_copiedTo (n : Node) (path : Path) :
    (n.copiedTo path).place.source = n.place.source.or
      (if n.path.document = path.document then none else some n.path) := by
  cases n <;> rfl

end Node

/-! ### Origins -/

/-- Whether a path leads to a value of one of the pages from which a value may have come. An object
or an array may only have come from a value of the same JSON that was not copied itself. -/
def Origin (pages : List Page) (r : Path) (m : Node) : Prop :=
  ∃ page ∈ pages, page.id = r.document ∧ ∃ t, page.root.at? r.keys = some t ∧
    (m.scalar? = none → t.place.source = none ∧ t.toJson = m.toJson)

theorem Origin.mono {pages more : List Page} {r : Path} {m : Node} (h : Origin pages r m)
    (hsub : ∀ page ∈ pages, page ∈ more) : Origin more r m := by
  obtain ⟨page, hpage, horigin⟩ := h
  exact ⟨page, hsub page hpage, horigin⟩

theorem Origin.copiedTo {pages : List Page} {r : Path} {m : Node} (h : Origin pages r m)
    (path : Path) : Origin pages r (m.copiedTo path) := by
  obtain ⟨page, hpage, hid, t, ht, hsame⟩ := h
  refine ⟨page, hpage, hid, t, ht, fun hscalar => ?_⟩
  rw [Node.scalar?_copiedTo] at hscalar
  rw [Node.toJson_copiedTo]
  exact hsame hscalar

/-- Whether the values of a page are well addressed, and every reference in it has its origin in one
of the pages behind it. -/
structure Page.IsTruthful (pages : List Page) (p : Page) : Prop where
  path_eq : p.root.path = .root p.id
  addressed : p.root.IsAddressed
  source : ∀ keys m r, p.root.at? keys = some m → m.place.source = some r → Origin pages r m

/-- Whether every page is truthful with regard to those behind it. -/
def Truthful : List Page → Prop
  | [] => True
  | p :: pages => p.IsTruthful pages ∧ Truthful pages

theorem Truthful.of_mem {pages : List Page} (h : Truthful pages) {p : Page} (hp : p ∈ pages) :
    ∃ behind, p.IsTruthful behind ∧ ∀ page ∈ behind, page ∈ pages := by
  induction pages with
  | nil => cases hp
  | cons q pages ih =>
    rcases List.mem_cons.1 hp with rfl | hp
    · exact ⟨pages, h.1, fun page => List.mem_cons_of_mem _⟩
    · obtain ⟨behind, htruthful, hsub⟩ := ih h.2 hp
      exact ⟨behind, htruthful, fun page hpage => List.mem_cons_of_mem _ (hsub page hpage)⟩

/-- Whether a value that is used in the document `id`, above the pages, has a truthful reference now
and will have one when it is copied. -/
structure Node.IsTraced (id : String) (pages : List Page) (m : Node) : Prop where
  placed : m.path.document = id ∨
    ∃ page ∈ pages, page.id = m.path.document ∧ (page.root.at? m.path.keys).isSome
  source : ∀ r, m.place.source = some r → Origin pages r m
  native : m.place.source = none → m.path.document = id ∨ Origin pages m.path m

section Traced

variable {id : String} {pages : List Page}

/-- A value of the document itself without a reference. -/
theorem Node.IsTraced.own {m : Node} (hpath : m.path.document = id)
    (hsource : m.place.source = none) : m.IsTraced id pages where
  placed := .inl hpath
  source r hr := by
    rw [hsource] at hr
    cases hr
  native _ := .inl hpath

/-- A copy in the document refers to where the value was before. -/
theorem Node.IsTraced.copiedTo {m : Node} (h : m.IsTraced id pages) {path : Path}
    (hpath : path.document = id) : (m.copiedTo path).IsTraced id pages where
  placed := .inl (by rw [path_copiedTo, hpath])
  native _ := .inl (by rw [path_copiedTo, hpath])
  source r hr := by
    refine Origin.copiedTo ?_ path
    rw [source_copiedTo, hpath] at hr
    rcases hsource : m.place.source with _ | first
    · rw [hsource, Option.none_or] at hr
      split at hr
      · cases hr
      · rename_i hother
        obtain rfl := Option.some.inj hr
        exact (h.native hsource).resolve_left hother
    · rw [hsource, Option.some_or] at hr
      exact h.source r (hsource.trans hr)

/-- A scalar that is computed for a value and placed where this is. -/
theorem Node.IsTraced.computed {n : Node} (h : n.IsTraced id pages) (s : Scalar) :
    (Node.scalar (.at n.path) s).IsTraced id pages where
  placed := h.placed
  source := nofun
  native _ := h.placed.imp_right fun ⟨page, hpage, hid, hreached⟩ => by
    obtain ⟨t, ht⟩ := Option.isSome_iff_exists.1 hreached
    exact ⟨page, hpage, hid, t, ht, nofun⟩

/-- A value of a truthful page is used with the reference that it has, or else with its own path. -/
theorem Page.IsTruthful.isTraced {behind : List Page} {p : Page} (h : p.IsTruthful behind)
    (hp : p ∈ pages) (hsub : ∀ page ∈ behind, page ∈ pages) {keys : List Key} {m : Node}
    (hat : p.root.at? keys = some m) : m.IsTraced id pages := by
  obtain ⟨hpath, -⟩ := h.addressed.at? hat
  have hreached : p.id = m.path.document ∧ p.root.at? m.path.keys = some m := by
    rw [hpath, h.path_eq]
    exact ⟨rfl, hat⟩
  refine ⟨.inr ⟨p, hp, hreached.1, ?_⟩, fun r hr => ?_, fun hsource => .inr ?_⟩
  · rw [hreached.2]
    rfl
  · exact (h.source keys m r hat hr).mono hsub
  · exact ⟨p, hp, hreached.1, m, hreached.2, fun _ => ⟨hsource, rfl⟩⟩

end Traced

namespace Node

/-- What stands in a member stands in the object. -/
theorem at?_of_mem {p : Place} {ms : List (String × Node)} (h : (ms.map (·.1)).Nodup)
    {m : String × Node} (hm : m ∈ ms) (keys : List Key) :
    (object p ms).at? (.member m.1 :: keys) = m.2.at? keys := by
  have hlookup : ms.lookup m.1 = some m.2 := by
    obtain ⟨before, after, rfl⟩ := List.append_of_mem hm
    rw [List.lookup_eq_some_iff]
    refine ⟨before, after, rfl, fun other hother => bne_iff_ne.2 fun heq => ?_⟩
    rw [List.map_append, List.map_cons, List.nodup_append] at h
    exact h.2.2 _ (List.mem_map_of_mem hother) _ List.mem_cons_self heq.symm
  show (ms.lookup m.1).bind _ = _
  rw [hlookup]
  rfl

/-- Nothing but the scalar itself stands in a scalar. -/
theorem at?_scalar {p : Place} {s : Scalar} {keys : List Key} {m : Node}
    (h : (scalar p s).at? keys = some m) : m = scalar p s := by
  rcases keys with _ | ⟨_ | _, keys⟩
  · exact (Option.some.inj h).symm
  · cases h
  · cases h

end Node

namespace Correspondence

/-- Well addressed values of which all parts are traced, related to themselves only. -/
def truthful (id : String) (pages : List Page) : Correspondence where
  node n n' := n = n' ∧ n.IsAddressed ∧ ∀ keys m, n.at? keys = some m → m.IsTraced id pages
  path p p' := p = p'
  position p p' := p = p'
  form := by
    rintro n _ ⟨rfl, haddressed, htraced⟩
    cases haddressed with
    | object p hnames _ hall =>
      refine .object p p (List.forall₂_same.2 fun m hm => ⟨rfl, rfl, hall m hm, ?_⟩)
      intro keys x hx
      exact htraced (.member m.1 :: keys) x ((Node.at?_of_mem hnames hm keys).trans hx)
    | @array p ns _ hall =>
      refine .array p p (List.forall₂_same.2 fun n hn => ⟨rfl, hall n hn, ?_⟩)
      intro keys x hx
      obtain ⟨i, hi⟩ := List.mem_iff_getElem?.1 hn
      refine htraced (.item i :: keys) x ?_
      show (ns[i]?.bind fun m => m.at? keys) = some x
      rw [hi]
      exact hx
    | scalar p s => exact .scalar p p s
  path_of_node h := congrArg Node.path h.1
  computed := by
    rintro n _ ⟨rfl, -, htraced⟩ s
    refine ⟨rfl, .scalar _ s, fun keys m hm => ?_⟩
    rw [Node.at?_scalar hm]
    exact (htraced [] n rfl).computed s

variable {id : String} {pages : List Page}

theorem truthful_isFaithful : (truthful id pages).IsFaithful :=
  .of_eq fun _ _ h => h

theorem truthful_builds : (truthful id pages).Builds id id where
  path _ := rfl
  scalar _ s := by
    refine ⟨rfl, .scalar _ s, fun keys m hm => ?_⟩
    rw [Node.at?_scalar hm]
    exact .own rfl rfl
  array keys := by
    intro ns ns' hns hpaths _
    obtain rfl : ns = ns' := List.forall₂_eq_eq_eq ▸ hns.imp fun _ _ h => h.1
    have hall := List.forall₂_same.1 hns
    refine ⟨rfl, .array _ hpaths fun n hn => (hall n hn).2.1, fun more m hm => ?_⟩
    rcases more with _ | ⟨_ | index, more⟩
    · rw [← Option.some.inj hm]
      exact .own rfl rfl
    · cases hm
    · obtain ⟨n, hn, hrest⟩ := Option.bind_eq_some_iff.1 hm
      exact (hall n (List.mem_of_getElem? hn)).2.2 more m hrest
  object keys := by
    intro ms ms' hms hnames
    obtain rfl : ms = ms' := List.forall₂_eq_eq_eq ▸
      hms.imp fun _ _ h => Prod.ext h.name_eq.symm h.value.1
    have hall := List.forall₂_same.1 hms
    refine ⟨rfl, .object _ hnames (fun m hm => (hall m hm).path_eq)
      fun m hm => (hall m hm).value.2.1, fun more m hm => ?_⟩
    rcases more with _ | ⟨name | _, more⟩
    · rw [← Option.some.inj hm]
      exact .own rfl rfl
    · obtain ⟨n, hn, hrest⟩ := Option.bind_eq_some_iff.1 hm
      exact (hall _ (Vocabulary.mem_of_lookup hn)).value.2.2 more m hrest
    · cases hm
  copied keys := by
    rintro n _ ⟨rfl, haddressed, htraced⟩
    refine ⟨rfl, n.isAddressed_copiedTo _ haddressed, fun more m hm => ?_⟩
    rw [Node.at?_copiedTo] at hm
    obtain ⟨x, hx, rfl⟩ := Option.map_eq_some_iff.1 hm
    exact (htraced more x hx).copiedTo rfl

end Correspondence

/-! ### Documents of a chain -/

/-- Whether the pages of a document are truthful and have different names. -/
structure Document.IsTruthful (d : Document) : Prop where
  truthful : Truthful d.pages
  ids_nodup : (d.pages.map (·.id)).Nodup

/-- A document below a truthful one may use all its values. -/
theorem Document.IsTruthful.corresponds {d : Document} (h : d.IsTruthful) (id : String) :
    d.Corresponds (.truthful id d.pages) d := by
  have hpage : ∀ p ∈ d.pages, p.Corresponds (.truthful id d.pages) p := by
    intro p hp
    obtain ⟨behind, htruthful, hsub⟩ := h.truthful.of_mem hp
    exact ⟨rfl, rfl, htruthful.addressed, fun _ _ hat => htruthful.isTraced hp hsub hat⟩
  exact ⟨hpage _ List.mem_cons_self,
    List.forall₂_same.2 fun p hp => hpage p (List.mem_cons_of_mem _ hp)⟩

namespace Engine

variable {e : Engine} {source : SourceText}

/-- A text of a new name below a truthful document, or below none, becomes a truthful document. -/
theorem isTruthful_of_mem (hv : ∀ C, e.dialect.vocabulary.Keeps C) {parent : Option Document}
    (hparent : ∀ p ∈ parent, p.IsTruthful ∧ source.id ∉ p.pages.map (·.id)) {d : Document}
    (hd : d ∈ (e.compileWithParents source parent.toList).documents) :
    d.IsTruthful ∧ d.id = source.id ∧ d.ancestors = (parent.map Document.pages).getD [] := by
  obtain ⟨tree, directives, -, hdetect, rfl⟩ := exists_work_of_mem hd
  have hancestors : Document.ancestorsOf parent.toList = (parent.map Document.pages).getD [] := by
    cases parent with
    | none => rfl
    | some p => exact ancestorsOf_singleton (hparent p rfl).1.ids_nodup
  generalize hpages : (parent.map Document.pages).getD [] = pages at *
  -- the work starts from traced values of the parent, and writes nothing but such
  have hw : (e.workshop source parent.toList).Corresponds (.truthful source.id pages)
      (e.workshop source parent.toList) := by
    refine ⟨Correspondence.truthful_builds, List.forall₂_same.2 fun p hp => ?_, rfl, rfl⟩
    obtain rfl := Option.mem_toList.1 hp
    rw [← hpages]
    exact (hparent p rfl).1.corresponds source.id
  have hlast := states_correspond Correspondence.truthful_isFaithful (fun _ => rfl) (hv _) hw
    (finalState_mem_states hdetect)
  obtain ⟨-, haddressed, htraced⟩ :=
    hlast.freeze (@Correspondence.truthful_builds source.id _) Correspondence.truthful_isFaithful
  have hpage : Page.IsTruthful pages ⟨source.id,
      (e.finalState source parent.toList tree directives).draft.freeze source.id⟩ :=
    ⟨Draft.path_freezeFrom .., haddressed, fun keys m r hat hr => (htraced keys m hat).source r hr⟩
  rw [← hancestors] at hpage
  refine ⟨⟨⟨hpage, ?_⟩, ?_⟩, rfl, hancestors⟩
  · show Truthful (Document.ancestorsOf parent.toList)
    rw [hancestors, ← hpages]
    cases parent with
    | none => trivial
    | some p => exact (hparent p rfl).1.truthful
  · show (source.id :: (Document.ancestorsOf parent.toList).map (·.id)).Nodup
    rw [hancestors, ← hpages]
    cases parent with
    | none => exact List.nodup_singleton _
    | some p => exact List.nodup_cons.2 ⟨(hparent p rfl).2, (hparent p rfl).1.ids_nodup⟩

/-- The documents of a chain of different names are truthful, and their names are of the chain. -/
theorem isTruthful_of_mem_compile (hv : ∀ C, e.dialect.vocabulary.Keeps C)
    {chain : List SourceText} (hids : (chain.map (·.id)).Nodup) {d : Document}
    (hd : d ∈ (e.compile chain).documents) :
    d.IsTruthful ∧ ∀ page ∈ d.pages, page.id ∈ chain.map (·.id) := by
  refine forall_mem_compile (P := fun chain d => (chain.map (·.id)).Nodup → d.IsTruthful ∧
    ∀ page ∈ d.pages, page.id ∈ chain.map (·.id)) ?_ ?_ chain d hd hids
  · intro source parents parent hparent d hd hids
    rw [List.map_cons, List.nodup_cons] at hids
    have hparents : ∀ p ∈ parent, p.IsTruthful ∧ source.id ∉ p.pages.map (·.id) := by
      intro p hp
      obtain ⟨htruthful, hnames⟩ := hparent p hp hids.2
      refine ⟨htruthful, fun hin => ?_⟩
      obtain ⟨page, hpage, heq⟩ := List.mem_map.1 hin
      exact hids.1 (heq ▸ hnames page hpage)
    obtain ⟨htruthful, hid, hancestors⟩ := isTruthful_of_mem hv hparents hd
    refine ⟨htruthful, fun page hpage => ?_⟩
    rcases List.mem_cons.1 hpage with rfl | hpage
    · exact List.mem_cons.2 (.inl hid)
    · rw [hancestors] at hpage
      cases parent with
      | none => cases hpage
      | some p => exact List.mem_cons_of_mem _ ((hparent p rfl hids.2).2 page hpage)
  · intro source parents d hbelow hids
    obtain ⟨htruthful, hnames⟩ := hbelow (List.nodup_cons.1 hids).2
    exact ⟨htruthful, fun page hpage => List.mem_cons_of_mem _ (hnames page hpage)⟩

/-- References lead to ancestors. In the documents of a chain of different names, and in answers to
queries against them, every reference is to another document, one of the ancestors, and leads to a
value there. For an object or an array, this value was not copied itself, and is the same JSON. -/
theorem references_lead_to_ancestors (e : Engine) (hv : ∀ C, e.dialect.vocabulary.Keeps C)
    {chain : List SourceText} (hids : (chain.map (·.id)).Nodup) :
    ∀ d ∈ (e.compile chain).documents,
      (∀ keys m r, d.root.at? keys = some m → m.place.source = some r →
        r.document ≠ d.id ∧ Origin d.ancestors r m) ∧
      ∀ expression n, queryId ∉ chain.map (·.id) → (e.query expression [d]).value = some n →
        ∀ keys m r, n.at? keys = some m → m.place.source = some r →
          r.document ≠ queryId ∧ Origin d.pages r m := by
  intro d hd
  obtain ⟨htruthful, hnames⟩ := isTruthful_of_mem_compile hv hids hd
  refine ⟨fun keys m r hat hr => ?_, fun expression n hquery hn keys m r hat hr => ?_⟩
  · have horigin := htruthful.truthful.1.source keys m r hat hr
    refine ⟨?_, horigin⟩
    obtain ⟨page, hpage, hid, -⟩ := horigin
    rintro heq
    have hfresh := (List.nodup_cons.1 htruthful.ids_nodup).1
    exact hfresh (List.mem_map.2 ⟨page, hpage, hid.trans heq⟩)
  · have hanswer := query_corresponds Correspondence.truthful_isFaithful (fun _ => rfl) (hv _)
      Correspondence.truthful_builds expression (.cons (htruthful.corresponds queryId) .nil)
    rw [hn] at hanswer
    cases hanswer with
    | some hnode =>
      obtain ⟨-, -, htraced⟩ := hnode
      have horigin := (htraced keys m hat).source r hr
      refine ⟨?_, horigin⟩
      obtain ⟨page, hpage, hid, -⟩ := horigin
      rintro heq
      exact hquery (heq ▸ hid ▸ hnames page hpage)

theorem references_lead_to_ancestors_taken :
    let e := Engine.standard (.midnight ⟨2024, 1, 1⟩)
    ∃ d m n r r', (e.compile takingChain).closest? takingChain = some d ∧
      d.root.at? [.member "B", .item 1] = some m ∧ m.place.source = some r ∧
        r.document ≠ d.id ∧ Origin d.ancestors r m ∧ (e.query "A.Last()" [d]).value = some n ∧
          n.place.source = some r' ∧ r'.document ≠ queryId ∧ Origin d.pages r' n := by
  intro e
  have hfound : ((((e.compile takingChain).closest? takingChain).bind fun d =>
      (d.root.at? [.member "B", .item 1]).bind fun m => m.place.source.bind fun _ =>
        (e.query "A.Last()" [d]).value.bind fun n => n.place.source)).isSome := by
    decide +kernel
  obtain ⟨r', hr'⟩ := Option.isSome_iff_exists.1 hfound
  obtain ⟨d, hd, hrest⟩ := Option.bind_eq_some_iff.1 hr'
  obtain ⟨m, hm, hrest⟩ := Option.bind_eq_some_iff.1 hrest
  obtain ⟨r, hr, hrest⟩ := Option.bind_eq_some_iff.1 hrest
  obtain ⟨n, hn, hsource⟩ := Option.bind_eq_some_iff.1 hrest
  have hfind : ((e.compile takingChain).documents.find? fun d => d.id == "C") = some d := hd
  have hids : (takingChain.map (·.id)).Nodup := by decide
  obtain ⟨hdocument, hanswer⟩ := references_lead_to_ancestors e
    (fun C => Vocabulary.standard_keeps C) hids d (List.mem_of_find?_eq_some hfind)
  obtain ⟨hother, horigin⟩ := hdocument _ m r hm hr
  obtain ⟨hother', horigin'⟩ := hanswer "A.Last()" n (by decide) hn [] n r' rfl hsource
  exact ⟨d, m, n, r, r', hd, hm, hr, hother, horigin, hn, hsource, hother', horigin'⟩

/-- What a projection computes for an item refers to the item when it is copied, though it is not
what stands there. -/
theorem computed_value_refers :
    let e := Engine.standard (.midnight ⟨2024, 1, 1⟩)
    let chain := [⟨"P", "\x7b\"A\":[null]\x7d"⟩]
    ∃ d n m r t, (e.compile chain).closest? chain = some d ∧
      (e.query "A.Select(x => true)" [d]).value = some n ∧ n.at? [.item 0] = some m ∧
        m.place.source = some r ∧ d.root.at? r.keys = some t ∧ t.isNull ∧ ¬ m.isNull := by
  intro e chain
  have hfound : (((e.compile chain).closest? chain).bind fun d =>
      (e.query "A.Select(x => true)" [d]).value.bind fun n => (n.at? [.item 0]).bind fun m =>
        m.place.source.bind fun r => (d.root.at? r.keys).map fun t =>
          decide (t.isNull ∧ ¬ m.isNull)) = some true := by
    decide +kernel
  obtain ⟨d, hd, hrest⟩ := Option.bind_eq_some_iff.1 hfound
  obtain ⟨n, hn, hrest⟩ := Option.bind_eq_some_iff.1 hrest
  obtain ⟨m, hm, hrest⟩ := Option.bind_eq_some_iff.1 hrest
  obtain ⟨r, hr, hrest⟩ := Option.bind_eq_some_iff.1 hrest
  obtain ⟨t, ht, hdiffer⟩ := Option.map_eq_some_iff.1 hrest
  exact ⟨d, n, m, r, t, hd, hn, hm, hr, ht, of_decide_eq_true hdiffer⟩

end Engine

end DocQuery
