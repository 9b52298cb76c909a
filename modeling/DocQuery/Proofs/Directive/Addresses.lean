/-
Paths as addresses.

* `Node.IsAddressed` — every value inside a value stands where its container has it;
* `Correspondence.addressed` — such values and no others, each related to itself;
* `Trail.isAddressed` — the work on a document never writes anything else;
* `Document.IsCompiled` — documents that come from texts, below documents that do;
* `Engine.states` — the states of the work on a document, from the first to the last;
* `Engine.paths_are_addresses` — paths are addresses in documents, in answers and in every state.

Design notes: that a value is well addressed is a relation between it and itself, so everything that
keeps corresponding values corresponding keeps this. A value that is taken over because it stands in
its place already is one for which its own addresses have to be right, and this is where a parent
comes in: it may be the source of any value.
-/
import DocQuery.Proofs.Directive.Invariant
import DocQuery.Proofs.Directive.Matching

namespace DocQuery

open Workshop (State)

/-! ### Addresses inside a value -/

/-- Whether every value inside a value has the path of its container with its own key behind, and
members of one object have different names. -/
inductive Node.IsAddressed : Node → Prop
  | object (p : Place) {ms : List (String × Node)} : (ms.map (·.1)).Nodup →
    (∀ m ∈ ms, m.2.path = p.path.member m.1) → (∀ m ∈ ms, m.2.IsAddressed) →
      IsAddressed (.object p ms)
  | array (p : Place) {ns : List Node} : (∀ i n, ns[i]? = some n → n.path = p.path.item i) →
    (∀ n ∈ ns, n.IsAddressed) → IsAddressed (.array p ns)
  | scalar (p : Place) (s : Scalar) : IsAddressed (.scalar p s)

namespace Node

/-- What stands where keys lead in a well addressed value has these keys behind its path. -/
theorem IsAddressed.at? {n m : Node} {keys : List Key} (h : n.IsAddressed)
    (hat : n.at? keys = some m) :
    m.path = ⟨n.path.document, n.path.keys ++ keys⟩ ∧ m.IsAddressed := by
  induction keys generalizing n with
  | nil =>
    obtain rfl := Option.some.inj hat
    rw [List.append_nil]
    exact ⟨rfl, h⟩
  | cons key keys ih =>
    have hstep : ∃ child : Node, child.at? keys = some m ∧ child.path = n.path.child key ∧
        child.IsAddressed := by
      cases key with
      | member name =>
        obtain ⟨child, hchild, hrest⟩ := Option.bind_eq_some_iff.1 hat
        cases h with
        | object p _ hpaths hall =>
          have hmem := Vocabulary.mem_of_lookup hchild
          exact ⟨child, hrest, hpaths _ hmem, hall _ hmem⟩
        | array => cases hchild
        | scalar => cases hchild
      | item index =>
        obtain ⟨child, hchild, hrest⟩ := Option.bind_eq_some_iff.1 hat
        cases h with
        | object => cases hchild
        | array p hpaths hall =>
          exact ⟨child, hrest, hpaths index child hchild, hall _ (List.mem_of_getElem? hchild)⟩
        | scalar => cases hchild
    obtain ⟨child, hat, hpath, haddressed⟩ := hstep
    obtain ⟨hm, hmaddressed⟩ := ih haddressed hat
    rw [hpath, Path.child, List.append_assoc] at hm
    exact ⟨hm, hmaddressed⟩

theorem names_copyMembers (path : Path) (ms : List (String × Node)) :
    (copyMembers path ms).map (·.1) = ms.map (·.1) := by
  induction ms with
  | nil => rfl
  | cons m ms ih => rw [copyMembers, List.map_cons, List.map_cons, ih]

theorem path_of_mem_copyMembers {path : Path} {ms : List (String × Node)} {m : String × Node}
    (h : m ∈ copyMembers path ms) : m.2.path = path.member m.1 := by
  induction ms with
  | nil => cases h
  | cons m' ms ih =>
    rw [copyMembers] at h
    rcases List.mem_cons.1 h with rfl | h
    · exact path_copiedTo _ _
    · exact ih h

mutual

/-- A copy of a well addressed value is well addressed. -/
theorem isAddressed_copiedTo (path : Path) : (n : Node) → n.IsAddressed →
    (n.copiedTo path).IsAddressed
  | .object p ms, h => by
    cases h with
    | object _ hnames _ hall =>
      rw [copiedTo]
      refine .object _ ?_ (fun m hm => path_of_mem_copyMembers hm)
        (isAddressed_copyMembers path ms hall)
      rw [names_copyMembers]
      exact hnames
  | .array p ns, h => by
    cases h with
    | array _ _ hall =>
      rw [copiedTo]
      refine .array _ (fun i n hn => ?_) (isAddressed_copyItems path 0 ns hall)
      rw [path_copyItems hn, Nat.zero_add]
      rfl
  | .scalar p s, _ => .scalar _ s

theorem isAddressed_copyMembers (path : Path) : (ms : List (String × Node)) →
    (∀ m ∈ ms, m.2.IsAddressed) → ∀ m ∈ copyMembers path ms, m.2.IsAddressed
  | [], _ => nofun
  | (name, value) :: ms, h => by
    rw [copyMembers, List.forall_mem_cons] at *
    exact ⟨isAddressed_copiedTo _ value h.1, isAddressed_copyMembers path ms h.2⟩

theorem isAddressed_copyItems (path : Path) (index : Nat) : (ns : List Node) →
    (∀ n ∈ ns, n.IsAddressed) → ∀ n ∈ copyItems path index ns, n.IsAddressed
  | [], _ => nofun
  | value :: ns, h => by
    rw [copyItems, List.forall_mem_cons] at *
    exact ⟨isAddressed_copiedTo _ value h.1, isAddressed_copyItems path (index + 1) ns h.2⟩

end

end Node

/-! ### Well addressed values as a correspondence -/

namespace Correspondence

/-- Well addressed values, related to themselves only. -/
def addressed : Correspondence where
  node n n' := n = n' ∧ n.IsAddressed
  path p p' := p = p'
  position p p' := p = p'
  form := by
    rintro n _ ⟨rfl, h⟩
    cases h with
    | object p _ _ hall =>
      exact .object p p (List.forall₂_same.2 fun m hm => ⟨rfl, rfl, hall m hm⟩)
    | array p _ hall => exact .array p p (List.forall₂_same.2 fun n hn => ⟨rfl, hall n hn⟩)
    | scalar p s => exact .scalar p p s
  path_of_node h := congrArg Node.path h.1
  computed := by
    rintro n _ ⟨rfl, _⟩ s
    exact ⟨rfl, .scalar _ s⟩

theorem addressed_isFaithful : addressed.IsFaithful :=
  .of_eq fun _ _ => id

theorem addressed_builds (id : String) : addressed.Builds id id where
  path _ := rfl
  scalar _ s := ⟨rfl, .scalar _ s⟩
  array keys := by
    intro ns ns' hns hpaths _
    obtain rfl : ns = ns' := List.forall₂_eq_eq_eq ▸ hns.imp fun _ _ h => h.1
    exact ⟨rfl, .array _ hpaths fun n hn => (List.forall₂_same.1 hns n hn).2⟩
  object keys := by
    intro ms ms' hms hnames
    obtain rfl : ms = ms' := List.forall₂_eq_eq_eq ▸
      hms.imp fun _ _ h => Prod.ext h.name_eq.symm h.value.1
    have hall := List.forall₂_same.1 hms
    exact ⟨rfl, .object _ hnames (fun m hm => (hall m hm).path_eq) fun m hm => (hall m hm).value.2⟩
  copied keys := by
    rintro n _ ⟨rfl, h⟩
    exact ⟨rfl, n.isAddressed_copiedTo _ h⟩

end Correspondence

/-! ### Documents and answers -/

/-- Documents that come from texts, each below documents that do, with dialects that leave values
well addressed. -/
inductive Document.IsCompiled : Document → Prop
  | intro {e : Engine} {source : SourceText} {parents : List Document} {d : Document} :
    e.dialect.vocabulary.Keeps .addressed → (∀ p ∈ parents, p.IsCompiled) →
      d ∈ (e.compileWithParents source parents).documents → IsCompiled d

theorem Value.path_toNode? {v : Value} {p : Path} {n : Node} (h : v.toNode? p = some n) :
    n.path = p := by
  cases v with
  | undefined => cases h
  | null | boolean | number | text | moment | nodes =>
    obtain rfl := Option.some.inj h
    rfl
  | node m =>
    obtain rfl := Option.some.inj h
    split
    · assumption
    · exact m.path_copiedTo p

namespace Engine

open Correspondence (addressed_isFaithful addressed_builds)

variable {e : Engine} {source : SourceText} {parents : List Document}

theorem workshop_addressed (e : Engine) (source : SourceText)
    (hparents : ∀ p ∈ parents, p.Corresponds .addressed p) :
    (e.workshop source parents).Corresponds .addressed (e.workshop source parents) where
  builds := addressed_builds source.id
  parents := List.forall₂_same.2 hparents
  options_eq := rfl
  now_eq := rfl

theorem path_of_query {expression : String} {documents : List Document} {n : Node}
    (h : (e.query expression documents).value = some n) : n.path = .root queryId := by
  rcases e.query_eq expression with ⟨fault, -, heq⟩ | ⟨f, -, heq⟩
  · rw [heq] at h
    cases h
  · rw [heq] at h
    generalize (evaluate ⟨queryDocument documents, e.options, e.now, []⟩ f).outcome = x at h
    cases x with
    | error => cases h
    | ok v => exact Value.path_toNode? h

/-- A compiled document is well addressed, and so is all that it inherits from. -/
theorem isAddressed_of_isCompiled {d : Document} (h : d.IsCompiled) :
    d.Corresponds .addressed d ∧ ∀ page ∈ d.pages, page.root.path = .root page.id := by
  induction h with
  | @intro e source parents d hv _ hd ih =>
    obtain ⟨tree, directives, -, hdetect, rfl⟩ := exists_work_of_mem hd
    have hw := e.workshop_addressed source fun p hp => (ih p hp).1
    have hlast := states_correspond addressed_isFaithful (fun _ => rfl) hv hw
      (finalState_mem_states hdetect)
    have hpage : Page.Corresponds .addressed
        ⟨source.id, (e.finalState source parents tree directives).draft.freeze source.id⟩
        ⟨source.id, (e.finalState source parents tree directives).draft.freeze source.id⟩ :=
      ⟨rfl, hlast.freeze (addressed_builds source.id) addressed_isFaithful⟩
    refine ⟨.ofParents addressed_isFaithful hpage hw.parents, ?_⟩
    intro page hpage
    rcases List.mem_cons.1 hpage with rfl | hpage
    · exact Draft.path_freezeFrom ..
    · obtain ⟨p, hp, hin⟩ := List.mem_flatMap.1 (mem_of_mem_ancestorsOf hpage)
      exact (ih p hp).2 page hin

/-- The documents of a chain are compiled documents. -/
theorem isCompiled_of_mem_compile (hv : e.dialect.vocabulary.Keeps .addressed)
    {chain : List SourceText} {d : Document} (hd : d ∈ (e.compile chain).documents) :
    d.IsCompiled := by
  refine forall_mem_compile (P := fun _ d => d.IsCompiled) ?_ (fun _ _ _ h => h) chain d hd
  intro source parents parent hparent d hd
  exact .intro hv (fun p hp => hparent p (Option.mem_toList.1 hp)) hd

/-- Paths are addresses. In a compiled document, the root is at the root path of the document and
every other value at the path of its container with its own key; an answer is such a value too. In
every state of the work on a text, the values of the draft are well addressed, and the path of a
cell is that of the value which the draft has for it, and leads to this value. -/
theorem paths_are_addresses :
    (∀ d : Document, d.IsCompiled → d.root.path = .root d.id ∧ d.root.IsAddressed ∧
      ∀ keys n, d.root.at? keys = some n → n.path = ⟨d.id, keys⟩) ∧
    (∀ (e : Engine) (expression : String) (documents : List Document) (n : Node),
      e.dialect.vocabulary.Keeps .addressed → (∀ d ∈ documents, d.IsCompiled) →
        (e.query expression documents).value = some n →
          n.path = .root queryId ∧ n.IsAddressed) ∧
    ∀ (e : Engine) (source : SourceText) (parents : List Document) (tree : Source),
      e.dialect.vocabulary.Keeps .addressed → (∀ p ∈ parents, p.IsCompiled) →
        readJson source.text = .ok tree → ∀ s ∈ e.states source parents tree,
          (s.draft.freeze source.id).path = .root source.id ∧
            (s.draft.freeze source.id).IsAddressed ∧
              ∀ cell ∈ s.draft.order, ∃ path fuel, s.draft.path? source.id cell = some path ∧
                (s.draft.freezeFrom fuel path cell).path = path ∧
                  (s.draft.freeze source.id).at? path.keys =
                    some (s.draft.freezeFrom fuel path cell) := by
  refine ⟨fun d hd => ?_, fun e expression documents n hv hdocuments hn => ?_,
    fun e source parents tree hv hparents hread s hs => ?_⟩
  · obtain ⟨haddressed, hpaths⟩ := isAddressed_of_isCompiled hd
    have hroot : d.root.path = .root d.id := hpaths _ List.mem_cons_self
    refine ⟨hroot, haddressed.page.root.2, fun keys n hat => ?_⟩
    rw [(haddressed.page.root.2.at? hat).1, hroot]
    rfl
  · have hall : List.Forall₂ (Document.Corresponds .addressed) documents documents :=
      List.forall₂_same.2 fun d hd => (isAddressed_of_isCompiled (hdocuments d hd)).1
    have hanswer := query_corresponds addressed_isFaithful (fun _ => rfl) hv
      (addressed_builds queryId) expression hall
    rw [hn] at hanswer
    cases hanswer with
    | some hnode => exact ⟨path_of_query hn, hnode.2⟩
  · have hw := e.workshop_addressed source fun p hp =>
      (isAddressed_of_isCompiled (hparents p hp)).1
    have hdraft := states_correspond addressed_isFaithful (fun _ => rfl) hv hw hs
    refine ⟨Draft.path_freezeFrom .., ?_, fun cell hcell => ?_⟩
    · exact (hdraft.freeze (addressed_builds source.id) addressed_isFaithful).2
    · have htree := states_isTree hread hs
      obtain ⟨keys, hleads⟩ := htree.mem_order_iff.1 hcell
      obtain ⟨fuel, -, hat⟩ := htree.at?_freeze hleads source.id
      refine ⟨⟨source.id, keys⟩, fuel + 1, ?_, Draft.path_freezeFrom .., hat⟩
      rw [Draft.path?, htree.lookup_walk_iff.2 hleads]
      rfl

/-- A document that takes over a value from the one that it inherits from. -/
def takingChain : List SourceText :=
  [⟨"C", "\x7b\"B\":[true,\"$value(A)\"]\x7d"⟩, ⟨"P", "\x7b\"A\":[null,\x7b\"X\":\"x\"\x7d]\x7d"⟩]

theorem paths_are_addresses_taken :
    let e := Engine.standard (.midnight ⟨2024, 1, 1⟩)
    ∃ d m n tree, (e.compile takingChain).closest? takingChain = some d ∧ d.root.IsAddressed ∧
      d.root.at? [.member "B", .item 1, .item 1, .member "X"] = some m ∧
        m.path = ⟨"C", [.member "B", .item 1, .item 1, .member "X"]⟩ ∧
          (e.query "B" [d]).value = some n ∧ n.path = .root queryId ∧ n.IsAddressed ∧
            readJson "[1,[true]]" = .ok tree ∧
              ∀ s ∈ e.states ⟨"D", "[1,[true]]"⟩ [d] tree, (s.draft.freeze "D").IsAddressed := by
  intro e
  have hv : e.dialect.vocabulary.Keeps .addressed := Vocabulary.standard_keeps _
  obtain ⟨haddresses, hanswers, hstates⟩ := paths_are_addresses
  have hfound : (((e.compile takingChain).closest? takingChain).bind fun d =>
      (d.root.at? [.member "B", .item 1, .item 1, .member "X"]).bind fun _ =>
        (e.query "B" [d]).value).isSome := by
    decide +kernel
  obtain ⟨n, hn⟩ := Option.isSome_iff_exists.1 hfound
  obtain ⟨d, hd, hrest⟩ := Option.bind_eq_some_iff.1 hn
  obtain ⟨m, hm, hquery⟩ := Option.bind_eq_some_iff.1 hrest
  have hfind : ((e.compile takingChain).documents.find? fun d => d.id == "C") = some d := hd
  have hcompiled : d.IsCompiled := isCompiled_of_mem_compile hv (List.mem_of_find?_eq_some hfind)
  have hid : d.id = "C" := by
    have hnamed := List.find?_some hfind
    exact beq_iff_eq.1 hnamed
  have hall : ∀ p ∈ [d], p.IsCompiled := by
    rintro p hp
    rw [List.mem_singleton.1 hp]
    exact hcompiled
  obtain ⟨-, hroot, hat⟩ := haddresses d hcompiled
  obtain ⟨hpath, hanswer⟩ := hanswers e "B" [d] n hv hall hquery
  obtain ⟨tree, htree⟩ := Except.exists_of_isOk
    (show (readJson "[1,[true]]").isOk by decide +kernel)
  refine ⟨d, m, n, tree, hd, hroot, hm, hid ▸ hat _ m hm, hquery, hpath, hanswer, htree, ?_⟩
  intro s hs
  exact (hstates e ⟨"D", "[1,[true]]"⟩ [d] tree hv hall htree s hs).2.1

end Engine

end DocQuery
