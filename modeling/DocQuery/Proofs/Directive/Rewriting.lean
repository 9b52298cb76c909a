/-
What a directive makes of a document.

* `Node.MembersFor`, `Node.ItemsFor` — entries of a container in the place of one of them;
* `Value.Offers` — the objects from which a value lets members be copied;
* `Action.Rewrites` — the document before and after an action, for each outcome of each kind;
* `Draft.IsTree.membersFor_freezeFrom`, `Draft.IsTree.itemsFor_freezeFrom` — what a changed
  container has become;
* `Draft.write_rewrites` — what is written rewrites the document as the kind of its action demands.

Design notes: the document is what the draft has become, so nothing is said of cells. Members keep
their paths when another one gives way, but items behind one that gives way are counted anew, and
what stands in them is copied to the places where it then is.
-/
import DocQuery.Proofs.Directive.Copying
import DocQuery.Proofs.Value.Placing

namespace DocQuery

/-! ### Entries in the place of others -/

namespace Node

/-- The names of the members of an object. -/
def memberNames (n : Node) : List String := (n.members?.getD []).map (·.1)

/-- An object before and after the members `more` have been copied into the place of the member
`name`. -/
inductive MembersFor (name : String) (more : List (String × Node)) : Node → Node → Prop
  | intro (p : Place) (before after : List (String × Node)) (n : Node) :
    MembersFor name more (.object p (before ++ (name, n) :: after))
      (.object p (before ++ copyMembers p.path more ++ after))

/-- An array before and after the items `more` have been copied into the place of the item `index`.
-/
inductive ItemsFor (index : Nat) (more : List Node) : Node → Node → Prop
  | intro (p : Place) (before after : List Node) (n : Node) : before.length = index →
    ItemsFor index more (.array p (before ++ n :: after))
      (.array p (before ++ copyItems p.path index (more ++ after)))

/-- A container before and after one of its entries has been taken out. -/
def Without : Key → Node → Node → Prop
  | .member name => MembersFor name []
  | .item index => ItemsFor index []

end Node

/-- The objects from which a value lets members be copied: itself, those of an array or a
collection in which there is nothing else, or none where nothing was found. -/
inductive Value.Offers : Value → List Node → Prop
  | nothing : Offers .undefined []
  | object (p : Place) (ms : List (String × Node)) :
    Offers (.node (.object p ms)) [.object p ms]
  | array (p : Place) {ns : List Node} : (∀ n ∈ ns, n.members?.isSome) →
    Offers (.node (.array p ns)) ns
  | nodes {ns : List Node} : (∀ n ∈ ns, n.members?.isSome) → Offers (.nodes ns) ns

/-- What an action makes of a document, if its string stands where the keys lead: the outcome of the
action, the document before and after, and the fault that is reported. -/
inductive Action.Rewrites (w : Workshop) :
    Action → List Key → Except Fault Value → Node → Node → Option Fault → Prop
  /-- a value that fails leaves everything as it was -/
  | valueFailed (f : Formula) (keys : List Key) (fault : Fault) (n : Node) :
    Rewrites w (.value f) keys (.error fault) n n (some fault)
  /-- nothing is found, which is not allowed -/
  | valueMissing (f : Formula) (keys : List Key) (n : Node) : w.options.removesUndefined = false →
    Rewrites w (.value f) keys (.ok .undefined) n n
      (some (.failed .undefinedValue f.position))
  /-- nothing is found for the whole document -/
  | valueCleared (f : Formula) (n : Node) : w.options.removesUndefined →
    Rewrites w (.value f) [] (.ok .undefined) n (.null n.path) none
  /-- nothing is found for an entry, which is taken out -/
  | valueRemoved (f : Formula) {keys : List Key} {key : Key} {n n' : Node} :
    w.options.removesUndefined → Node.ChangedAt (Node.Without key) keys n n' →
      Rewrites w (.value f) (keys ++ [key]) (.ok .undefined) n n' none
  /-- the value stands in the place of the string -/
  | valueWritten (f : Formula) {keys : List Key} {v : Value} {m n n' : Node} :
    v.placedIn w.id = some m → Node.ChangedAt (fun old new => new = m.copiedTo old.path) keys n n' →
      Rewrites w (.value f) keys (.ok v) n n' none
  /-- a text that fails leaves everything as it was -/
  | textFailed (parts : List Part) (keys : List Key) (fault : Fault) (n : Node) :
    Rewrites w (.interpolate parts) keys (.error fault) n n (some fault)
  /-- the text stands in the place of the string -/
  | textWritten (parts : List Part) {keys : List Key} {text : String} {n n' : Node} :
    Node.ChangedAt (fun old new => new = .scalar (.at old.path) (.quoted text)) keys n n' →
      Rewrites w (.interpolate parts) keys (.ok (.text text)) n n' none
  /-- if items fail to be merged, the item that asks for them is taken out -/
  | mergeFailed (f : Formula) {keys : List Key} {index : Nat} (fault : Fault) {n n' : Node} :
    Node.ChangedAt (Node.Without (.item index)) keys n n' →
      Rewrites w (.merge f) (keys ++ [.item index]) (.error fault) n n' (some fault)
  /-- the items stand in the place of the item that asks for them -/
  | merged (f : Formula) {keys : List Key} {index : Nat} {v : Value} {n n' : Node} :
    Node.ChangedAt (Node.ItemsFor index (v.mergedItems w.id)) keys n n' →
      Rewrites w (.merge f) (keys ++ [.item index]) (.ok v) n n' none
  /-- if members fail to be found, the member that asks for them is taken out -/
  | copyFailed (f : Formula) {keys : List Key} (fault : Fault) {n n' : Node} :
    Node.ChangedAt (Node.Without (.member copyFieldsName)) keys n n' →
      Rewrites w (.copyFields f) (keys ++ [.member copyFieldsName]) (.error fault) n n'
        (some fault)
  /-- the same happens if what is found is not all objects -/
  | copyRefused (f : Formula) {keys : List Key} {v : Value} {problem : EvaluationProblem}
    (position : Position) {n n' : Node} : (∀ ns, ¬ v.Offers ns) →
      problem ∈ [.copyFromNonObject v.sort, .copyFromNonObjects] →
        Node.ChangedAt (Node.Without (.member copyFieldsName)) keys n n' →
          Rewrites w (.copyFields f) (keys ++ [.member copyFieldsName]) (.ok v) n n'
            (some (.failed problem position))
  /-- the members that are new stand in the place of the member that asks for them -/
  | copied (f : Formula) {keys : List Key} {v : Value} {ns : List Node} {n n' : Node} :
    v.Offers ns →
      Node.ChangedAt (fun old new => Node.MembersFor copyFieldsName
        (freshMembers (copyFieldsName :: old.memberNames)
          (ns.flatMap fun m => m.members?.getD [])) old new) keys n n' →
        Rewrites w (.copyFields f) (keys ++ [.member copyFieldsName]) (.ok v) n n' none

theorem Node.ChangedAt.mono {change change' : Node → Node → Prop} {keys : List Key} {n n' : Node}
    (h : Node.ChangedAt change keys n n') (himp : ∀ old new, change old new → change' old new) :
    Node.ChangedAt change' keys n n' := by
  induction h with
  | here hchange => exact .here (himp _ _ hchange)
  | member p _ ih => exact .member p ih
  | item p hindex _ ih => exact .item p hindex ih

/-! ### What is offered for copying -/

/-- The members that a value lets be copied, or why it is refused, when it stands at `position`. -/
inductive Value.OffersMembers (position : Position) (v : Value) :
    Except Fault (List (String × Node)) → Prop
  | offered {ns : List Node} : v.Offers ns →
    OffersMembers position v (.ok (ns.flatMap fun n => n.members?.getD []))
  | refused {problem : EvaluationProblem} : (∀ ns, ¬ v.Offers ns) →
    problem ∈ [.copyFromNonObject v.sort, .copyFromNonObjects] →
      OffersMembers position v (.error (.failed problem position))

namespace Value.OffersMembers

variable {position : Position} {v : Value}

/-- What is not made of values of documents is refused. -/
theorem of_refused (hno : ∀ ns, ¬ v.Offers ns)
    (hsources : v.sources position = .error (.failed (.copyFromNonObject v.sort) position)) :
    v.OffersMembers position (v.offeredMembers position) := by
  rw [offeredMembers, hsources]
  exact .refused hno List.mem_cons_self

/-- Values of a document are offered if they are objects. -/
theorem of_checked (ns : List Node)
    (hsources : v.sources position =
      if ns.all fun n => n.members?.isSome then .ok ns
      else .error (.failed .copyFromNonObjects position))
    (hoffers : (∀ n ∈ ns, n.members?.isSome) → v.Offers ns)
    (hobjects : ∀ ms, v.Offers ms → ∀ n ∈ ns, n.members?.isSome) :
    v.OffersMembers position (v.offeredMembers position) := by
  rw [offeredMembers, hsources]
  by_cases hall : ∀ n ∈ ns, n.members?.isSome
  · rw [if_pos (List.all_eq_true.2 hall)]
    exact .offered (hoffers hall)
  · rw [if_neg (mt List.all_eq_true.1 hall)]
    refine .refused (fun ms hms => hall (hobjects ms hms)) ?_
    exact List.mem_cons_of_mem _ List.mem_cons_self

end Value.OffersMembers

theorem Value.offeredMembers_spec (position : Position) (v : Value) :
    v.OffersMembers position (v.offeredMembers position) := by
  cases v with
  | undefined => exact .of_checked [] rfl (fun _ => .nothing) fun _ _ => nofun
  | null | boolean | number | text | moment => exact .of_refused nofun rfl
  | nodes ns =>
    refine .of_checked ns rfl .nodes ?_
    rintro _ ⟨⟩
    assumption
  | node n =>
    cases n with
    | object p ms =>
      refine .of_checked [.object p ms] rfl (fun _ => .object p ms) ?_
      intro _ _ m hm
      rw [List.mem_singleton.1 hm]
      rfl
    | array p ns =>
      refine .of_checked ns rfl (.array p) ?_
      rintro _ ⟨⟩
      assumption
    | scalar p s => exact .of_refused nofun rfl

/-! ### Changed containers -/

namespace Draft

variable {d d' : Draft} {n id owner fuel fuel' first : Nat} {path : Path} {c : Content}

theorem changedIn_setContent (d : Draft) (id : Nat) (c : Content) :
    d.ChangedIn id (d.setContent id c) := by
  refine ⟨rfl, fun hne hc => ?_⟩
  rw [content?_setContent, if_neg hne, hc]

/-- Cells that are added behind the old ones leave these as they are. -/
theorem changedIn_addAll (d : Draft) (position : Position) (ns : List Node) (owner : Nat)
    (change : Content → Content) :
    d.ChangedIn owner ((d.addAll position ns).1.changeContent owner change) := by
  constructor
  · rw [addAll_eq]
    rfl
  · intro id c hne hc
    rw [content?_changeContent, if_neg hne, content?_addAll_of_lt (content?_lt_size hc), hc]

theorem content?_changed {position : Position} {ns : List Node} {change : Content → Content}
    (hc : d.content? owner = some c) :
    ((d.addAll position ns).1.changeContent owner change).content? owner = some (change c) := by
  rw [content?_changeContent, if_pos rfl, content?_addAll_of_lt (content?_lt_size hc), hc]
  rfl

theorem holdsFrom_changed {position : Position} {ns : List Node} {change : Content → Content}
    (hc : d.content? owner = some c) :
    ((d.addAll position ns).1.changeContent owner change).HoldsFrom d.cells.size ns := by
  intro i m hm
  have howner := content?_lt_size hc
  rw [content?_changeContent, if_neg (by omega), d.holdsFrom_addAll position ns i m hm]

namespace IsTree

/-- The last key of a way is the one that its last container has for the cell. -/
theorem exists_above (h : d.IsTree n) {key : Key} {keys : List Key}
    (hleads : d.Leads d.root keys id) (he : (key, id) ∈ d.entries owner) :
    ∃ above, keys = above ++ [key] ∧ d.Leads d.root above owner := by
  rcases keys.eq_nil_or_concat' with rfl | ⟨above, last, rfl⟩
  · have hroot := h.leads_target hleads (.here d.root)
    exact absurd hroot (h.ne_root he)
  · obtain ⟨owner', habove, he'⟩ := hleads.exists_owner
    obtain ⟨rfl, heq⟩ := h.unique he he' rfl
    obtain rfl : key = last := congrArg Prod.fst heq
    exact ⟨above, rfl, habove⟩

/-- A container of a cell of the text takes more than one step of fuel. -/
theorem exists_fuel (h : d.IsTree n) {key : Key} (hid : id < n) (he : (key, id) ∈ d.entries owner)
    (hf : Enough n d' (fuel + 1) owner) : ∃ rest, fuel = rest + 1 := by
  have howner := h.owner_lt he
  have hchild := h.child he
  have hfuel := hf.2 howner
  simp only at hchild
  exact ⟨fuel - 1, by omega⟩

/-- An object whose one member has given way to added ones. -/
theorem membersFor_freezeFrom (h : d.IsTree n) (h' : d'.IsTree n) (hedit : d.ChangedIn owner d')
    (haddressed : d'.HoldsAddressed) {above : List Key} (habove : d.Leads d.root above owner)
    {name : String} {before after : List (String × Nat)} {ms : List (String × Node)}
    (hid : id < n) (hc : d.content? owner = some (.object (before ++ (name, id) :: after)))
    (hadded : d'.HoldsFrom first (ms.map (·.2)))
    (hc' : d'.content? owner = some (.object
      (before ++ (ms.map (·.1)).zip (List.range' first (ms.map (·.2)).length) ++ after)))
    (hf : Enough n d (fuel + 1) owner) (hf' : Enough n d' (fuel' + 1) owner) :
    Node.MembersFor name ms (d.freezeFrom (fuel + 1) path owner)
      (d'.freezeFrom (fuel' + 1) path owner) := by
  have he : (.member name, id) ∈ d.entries owner := by
    rw [entries_of_content? hc]
    exact List.mem_map.2 ⟨(name, id), by simp, rfl⟩
  obtain ⟨rest, rfl⟩ := h.exists_fuel hid he hf'
  -- the members beside the one that gives way are the same in both drafts
  have hbeside : ∀ m, (m ∈ before ∨ m ∈ after) →
      (m.1, d'.freezeFrom (rest + 1) (path.member m.1) m.2) =
        (m.1, d.freezeFrom fuel (path.member m.1) m.2) := by
    intro m hm
    have hold : m.2 ∈ (d.entries owner).map (·.2) := by
      rw [entries_of_content? hc, Content.object_targets]
      refine List.mem_map_of_mem ?_
      rw [List.mem_append, List.mem_cons]
      exact hm.imp_right .inr
    have hnew : m.2 ∈ (d'.entries owner).map (·.2) := by
      rw [entries_of_content? hc', Content.object_targets]
      refine List.mem_map_of_mem ?_
      rw [List.mem_append, List.mem_append]
      exact hm.imp_left .inl
    rw [h.freezeFrom_below h' hedit habove hf hf' hold hnew]
  have hmiddle := hadded.map_members haddressed rest path
  rw [h.freezeFrom_object hc, h'.freezeFrom_object hc', List.map_append, List.map_append,
    List.map_append, List.map_cons, hmiddle, List.map_congr_left fun m hm => hbeside m (.inl hm),
    List.map_congr_left fun m hm => hbeside m (.inr hm)]
  exact .intro _ _ _ _

/-- An array whose one item has given way to added ones. -/
theorem itemsFor_freezeFrom (h : d.IsTree n) (h' : d'.IsTree n) (hedit : d.ChangedIn owner d')
    (hbefore : d.HoldsAddressed) (haddressed : d'.HoldsAddressed) {above : List Key}
    (habove : d.Leads d.root above owner) {before after : List Nat} {ns : List Node} (hid : id < n)
    (hc : d.content? owner = some (.array (before ++ id :: after)))
    (hadded : d'.HoldsFrom first ns)
    (hc' : d'.content? owner = some (.array (before ++ List.range' first ns.length ++ after)))
    (hf : Enough n d (fuel + 1) owner) (hf' : Enough n d' (fuel' + 1) owner) :
    Node.ItemsFor before.length ns (d.freezeFrom (fuel + 1) path owner)
      (d'.freezeFrom (fuel' + 1) path owner) := by
  have he : (.item before.length, id) ∈ d.entries owner := by
    rw [entries_of_content? hc]
    refine List.mem_map.2 ⟨(id, before.length), ?_, rfl⟩
    rw [List.mem_zipIdx_iff_getElem?]
    simp
  obtain ⟨rest, rfl⟩ := h.exists_fuel hid he hf'
  have hbeside : ∀ item, (item ∈ before ∨ item ∈ after) → ∀ path,
      d'.freezeFrom (rest + 1) path item = d.freezeFrom fuel path item := by
    intro item hitem path
    have hold : item ∈ (d.entries owner).map (·.2) := by
      rw [entries_of_content? hc, Content.array_targets, List.mem_append, List.mem_cons]
      exact hitem.imp_right .inr
    have hnew : item ∈ (d'.entries owner).map (·.2) := by
      rw [entries_of_content? hc', Content.array_targets, List.mem_append, List.mem_append]
      exact hitem.imp_left .inl
    exact h.freezeFrom_below h' hedit habove hf hf' hold hnew path
  have hleft : before.zipIdx.map (fun i => d'.freezeFrom (rest + 1) (path.item i.2) i.1) =
      before.zipIdx.map fun i => d.freezeFrom fuel (path.item i.2) i.1 :=
    List.map_congr_left fun i hi => hbeside i.1 (.inl (List.fst_mem_of_mem_zipIdx hi)) _
  have hmiddle := hadded.map_items haddressed rest path before.length
  -- the items behind are the same too, but stand at other places
  have hright : ∀ index, (after.zipIdx index).map
      (fun i => d'.freezeFrom (rest + 1) (path.item i.2) i.1) =
        Node.copyItems path index ((after.zipIdx (before.length + 1)).map fun i =>
          d.freezeFrom fuel (path.item i.2) i.1) := by
    intro index
    rw [copyItems_zipIdx (d.freezeFrom fuel) (h.copiedTo_freezeFrom hbefore) rfl]
    exact List.map_congr_left fun i hi => hbeside i.1 (.inr (List.fst_mem_of_mem_zipIdx hi)) _
  have hcopied := Node.copyItems_append path before.length ns
    ((after.zipIdx (before.length + 1)).map fun i => d.freezeFrom fuel (path.item i.2) i.1)
  rw [freezeFrom_array hc, freezeFrom_array hc', List.zipIdx_append, List.zipIdx_append,
    List.zipIdx_append, List.zipIdx_cons, List.length_append, List.length_range', Nat.zero_add,
    Nat.zero_add, List.map_append, List.map_append, List.map_append, List.map_cons, hleft, hmiddle,
    hright, List.append_assoc, ← hcopied]
  exact .intro _ _ _ _ (by simp)

/-- The document changes at the object whose one member gives way to added ones. -/
theorem changedAt_members (h : d.IsTree n) (position : Position) (ms : List (String × Node))
    {change : Content → Content}
    (h' : ((d.addAll position (ms.map (·.2))).1.changeContent owner change).IsTree n)
    (haddressed : ((d.addAll position (ms.map (·.2))).1.changeContent owner change).HoldsAddressed)
    (document : String) {above : List Key} (habove : d.Leads d.root above owner) {name : String}
    {before after : List (String × Nat)} (hid : id < n)
    (hc : d.content? owner = some (.object (before ++ (name, id) :: after)))
    (hchange : change (.object (before ++ (name, id) :: after)) = .object
      (before ++ (ms.map (·.1)).zip (List.range' d.cells.size (ms.map (·.2)).length) ++ after)) :
    Node.ChangedAt
      (fun old new => old.memberNames = d.memberNames owner ∧ Node.MembersFor name ms old new) above
      (d.freeze document)
      (((d.addAll position (ms.map (·.2))).1.changeContent owner change).freeze document) := by
  have hedit := d.changedIn_addAll position (ms.map (·.2)) owner change
  refine h.changedAt_freeze h' hedit document habove fun fuel fuel' hf hf' => ⟨?_, ?_⟩
  · rw [h.freezeFrom_object hc, memberNames, hc]
    simp [Node.memberNames, Node.members?, Function.comp_def]
  · refine h.membersFor_freezeFrom h' hedit haddressed habove hid hc (holdsFrom_changed hc) ?_ hf
      hf'
    rw [content?_changed hc, hchange]

/-- The document changes at the array whose one item gives way to added ones. -/
theorem changedAt_items (h : d.IsTree n) (hbefore : d.HoldsAddressed) {position : Position}
    {ns : List Node} {change : Content → Content}
    (h' : ((d.addAll position ns).1.changeContent owner change).IsTree n)
    (haddressed : ((d.addAll position ns).1.changeContent owner change).HoldsAddressed)
    (document : String) {above : List Key} (habove : d.Leads d.root above owner) {index : Nat}
    (hid : id < n) (he : (.item index, id) ∈ d.entries owner)
    (hchange : ∀ items, change (.array items) =
      .array (items.take index ++ (d.addAll position ns).2 ++ items.drop (index + 1))) :
    Node.ChangedAt (Node.ItemsFor index ns) above (d.freeze document)
      (((d.addAll position ns).1.changeContent owner change).freeze document) := by
  obtain ⟨before, after, rfl, hc⟩ := exists_items_of_entry he
  have hedit := d.changedIn_addAll position ns owner change
  refine h.changedAt_freeze h' hedit document habove fun fuel fuel' hf hf' => ?_
  refine h.itemsFor_freezeFrom h' hedit hbefore haddressed habove hid hc (holdsFrom_changed hc) ?_
    hf hf'
  rw [content?_changed hc, hchange, addAll_eq, List.take_left, List.drop_append]
  simp

/-- The document changes at the container from which an entry is taken out. -/
theorem changedAt_without (h : d.IsTree n) (hbefore : d.HoldsAddressed)
    (h' : (d.without id).IsTree n) (haddressed : (d.without id).HoldsAddressed) (document : String)
    {above : List Key} {key : Key} (hid : id < n) (habove : d.Leads d.root above owner)
    (he : (key, id) ∈ d.entries owner) :
    Node.ChangedAt (Node.Without key) above (d.freeze document)
      ((d.without id).freeze document) := by
  obtain ⟨s, hs, rfl, rfl⟩ := h.slot?_of_mem he
  have hwithout : d.without id =
      (d.addAll .start []).1.changeContent s.owner (Content.without s) := by
    rw [Draft.without, remove?, hs]
    rfl
  rw [hwithout] at h' haddressed ⊢
  cases s with
  | member object name =>
    obtain ⟨before, after, hc⟩ := exists_members_of_entry he
    have hchange : Content.without (.member object name) (.object (before ++ (name, id) :: after)) =
        .object (before ++ [] ++ after) := by
      rw [Content.without, filter_name_append (h.names_nodup hc), List.append_nil]
    have hchanged := h.changedAt_members .start [] h' haddressed document habove hid hc hchange
    exact hchanged.mono fun _ _ hnew => hnew.2
  | item array index =>
    refine h.changedAt_items hbefore h' haddressed document habove hid he fun items => ?_
    rw [Content.without, List.eraseIdx_eq_take_drop_succ]
    simp [Draft.addAll]

/-- The document changes where the contents of a cell do. -/
theorem changedAt_setContent (h : d.IsTree n) (change : Node → Node → Prop) {keys : List Key}
    (hleads : d.Leads d.root keys id) (h' : (d.setContent id c).IsTree n) (document : String)
    (hchange : ∀ old fuel, (d.setContent id c).content? id = some c →
      old.path = ⟨document, keys⟩ →
        change old ((d.setContent id c).freezeFrom (fuel + 1) old.path id)) :
    Node.ChangedAt change keys (d.freeze document) ((d.setContent id c).freeze document) := by
  obtain ⟨old, hold⟩ := h.exists_content hleads
  refine h.changedAt_freeze h' (d.changedIn_setContent id c) document hleads ?_
  intro fuel fuel' _ _
  have hcontent : (d.setContent id c).content? id = some c := by
    rw [content?_setContent, if_pos rfl, hold]
    rfl
  have hpath := d.path_freezeFrom (fuel + 1) ⟨document, keys⟩ id
  have hchanged := hchange (d.freezeFrom (fuel + 1) ⟨document, keys⟩ id) fuel' hcontent hpath
  rwa [hpath] at hchanged

end IsTree

/-! ### What is written -/

section Write

variable {w : Workshop} {keys : List Key} {outcome : Except Fault Value}

/-- A member stands once in the object around it, and no other one of its name stands before it. -/
theorem IsTree.exists_object_around (h : d.IsTree n) {object : Nat} {name : String}
    (hslot : d.slot? id = some (.member object name)) :
    ∃ before after, d.content? object = some (.object (before ++ (name, id) :: after)) ∧
      name ∉ before.map (·.1) := by
  obtain ⟨before, after, hc⟩ := exists_members_of_entry (mem_entries_of_slot? hslot)
  exact ⟨before, after, hc, not_mem_of_names_nodup (h.names_nodup hc)⟩

/-- If members fail to be found, the member that asks for them is taken out. -/
theorem writeMembers_of_error {object : Nat} {name : String} {fault : Fault}
    (hslot : d.slot? id = some (.member object name))
    (h : outcome.bind (Value.offeredMembers (d.positionOf id)) = .error fault) :
    d.writeMembers id outcome = (d.spliceMember object name [], some fault) := by
  rw [writeMembers, hslot]
  simp only [h]

/-- Members that are found are added, and the new ones among them take the place. -/
theorem writeMembers_of_ok {object : Nat} {name : String} {offered : List (String × Node)}
    (hslot : d.slot? id = some (.member object name))
    (h : outcome.bind (Value.offeredMembers (d.positionOf id)) = .ok offered) :
    d.writeMembers id outcome =
      let fresh := freshMembers (copyFieldsName :: d.memberNames object) offered
      ((d.addAll (d.positionOf id) (fresh.map (·.2))).1.spliceMember object name
        ((fresh.map (·.1)).zip (d.addAll (d.positionOf id) (fresh.map (·.2))).2), none) := by
  rw [writeMembers, hslot]
  simp only [h]

theorem writeMembers_rewrites (h : d.IsTree n) (hid : id < n) (hleads : d.Leads d.root keys id)
    {object : Nat} (hslot : d.slot? id = some (.member object copyFieldsName)) (f : Formula)
    (h' : (d.writeMembers id outcome).1.IsTree n)
    (haddressed : (d.writeMembers id outcome).1.HoldsAddressed) :
    Action.Rewrites w (.copyFields f) keys outcome (d.freeze w.id)
      ((d.writeMembers id outcome).1.freeze w.id) (d.writeMembers id outcome).2 := by
  have he : (.member copyFieldsName, id) ∈ d.entries object := mem_entries_of_slot? hslot
  obtain ⟨above, rfl, habove⟩ := h.exists_above hleads he
  obtain ⟨before, after, hc, hnot⟩ := h.exists_object_around hslot
  have hremoved : (d.spliceMember object copyFieldsName []).IsTree n →
      (d.spliceMember object copyFieldsName []).HoldsAddressed →
        Node.ChangedAt (Node.Without (.member copyFieldsName)) above (d.freeze w.id)
          ((d.spliceMember object copyFieldsName []).freeze w.id) := by
    intro htree haddressed
    have hchanged := h.changedAt_members .start [] htree haddressed w.id habove
      hid hc (congrArg Content.object (spliceInto_append hnot))
    exact hchanged.mono fun _ _ hnew => hnew.2
  cases outcome with
  | error fault =>
    rw [writeMembers_of_error hslot rfl] at h' haddressed ⊢
    exact .copyFailed f fault (hremoved h' haddressed)
  | ok v =>
    have hspec := v.offeredMembers_spec (d.positionOf id)
    generalize hoffered : v.offeredMembers (d.positionOf id) = offered at hspec
    have hbind : (Except.ok v : Except Fault Value).bind
        (Value.offeredMembers (d.positionOf id)) = offered := hoffered
    cases hspec with
    | @refused problem hno hproblem =>
      rw [writeMembers_of_error hslot hbind] at h' haddressed ⊢
      exact .copyRefused f _ hno hproblem (hremoved h' haddressed)
    | @offered ns hoffers =>
      rw [writeMembers_of_ok hslot hbind] at h' haddressed ⊢
      generalize hfresh : freshMembers (copyFieldsName :: d.memberNames object)
        (ns.flatMap fun m => m.members?.getD []) = fresh at h' haddressed ⊢
      simp only at h' haddressed ⊢
      have hspliced : Content.object (spliceInto copyFieldsName
          ((fresh.map (·.1)).zip (d.addAll (d.positionOf id) (fresh.map (·.2))).2)
            (before ++ (copyFieldsName, id) :: after)) = .object (before ++
              (fresh.map (·.1)).zip (List.range' d.cells.size (fresh.map (·.2)).length) ++
                after) := by
        rw [spliceInto_append hnot, addAll_eq]
      have hchanged := h.changedAt_members (d.positionOf id) fresh h' haddressed w.id habove hid hc
        hspliced
      refine .copied f hoffers (hchanged.mono fun old new hnew => ?_)
      rw [hnew.1, hfresh]
      exact hnew.2

theorem writeItems_rewrites (h : d.IsTree n) (hbefore : d.HoldsAddressed) (hid : id < n)
    (hleads : d.Leads d.root keys id) {array index : Nat}
    (hslot : d.slot? id = some (.item array index)) (f : Formula)
    (h' : (d.writeItems w id outcome).1.IsTree n)
    (haddressed : (d.writeItems w id outcome).1.HoldsAddressed) :
    Action.Rewrites w (.merge f) keys outcome (d.freeze w.id)
      ((d.writeItems w id outcome).1.freeze w.id) (d.writeItems w id outcome).2 := by
  have he : (.item index, id) ∈ d.entries array := mem_entries_of_slot? hslot
  obtain ⟨above, rfl, habove⟩ := h.exists_above hleads he
  cases outcome with
  | error fault =>
    exact .mergeFailed f fault (h.changedAt_without hbefore h' haddressed w.id hid habove he)
  | ok v =>
    -- the added cells hold finished values, so the item is still where it was
    rw [writeItems] at h' haddressed ⊢
    simp only [Draft.splice, slot?_addAll, hslot] at h' haddressed ⊢
    refine .merged f (h.changedAt_items hbefore h' haddressed w.id habove hid he fun items => ?_)
    rfl

theorem writeValue_rewrites (h : d.IsTree n) (hbefore : d.HoldsAddressed) (hid : id < n)
    (hleads : d.Leads d.root keys id) (f : Formula)
    (h' : (d.writeValue w id f.position outcome).1.IsTree n)
    (haddressed : (d.writeValue w id f.position outcome).1.HoldsAddressed) :
    Action.Rewrites w (.value f) keys outcome (d.freeze w.id)
      ((d.writeValue w id f.position outcome).1.freeze w.id)
      (d.writeValue w id f.position outcome).2 := by
  cases outcome with
  | error fault => exact .valueFailed f keys fault _
  | ok v =>
    rw [writeValue] at h' haddressed ⊢
    rcases hplaced : v.placedIn w.id with _ | m
    · obtain rfl := Value.placedIn_eq_none_iff.1 hplaced
      simp only [hplaced] at h' haddressed ⊢
      rcases hremoves : w.options.removesUndefined
      · exact .valueMissing f keys _ hremoves
      · simp only [hremoves, if_true] at h' haddressed ⊢
        by_cases hroot : id = d.root
        · -- the whole document is replaced, since no keys lead to its root
          subst hroot
          obtain rfl := h.leads_unique hleads (.here d.root)
          rw [if_pos rfl] at h' ⊢
          have hchanged := h.changedAt_setContent (fun old new => new = .null old.path)
            (.here d.root) h' w.id ?_
          · cases hchanged with
            | here hnull =>
              rw [hnull]
              exact .valueCleared f _ hremoves
          · intro old fuel hc _
            rw [freezeFrom_scalar hc]
            rfl
        · rw [if_neg hroot] at h' haddressed ⊢
          rcases keys.eq_nil_or_concat' with rfl | ⟨above, key, rfl⟩
          · exact absurd (h.leads_target hleads (.here d.root)) hroot
          · obtain ⟨owner, habove, he⟩ := hleads.exists_owner
            refine .valueRemoved f hremoves ?_
            exact h.changedAt_without hbefore h' haddressed w.id hid habove he
    · simp only [hplaced] at h' haddressed ⊢
      refine .valueWritten f hplaced (h.changedAt_setContent _ hleads h' w.id ?_)
      intro old fuel hc _
      exact haddressed.freezeFrom hc

theorem writeText_rewrites (h : d.IsTree n) (hleads : d.Leads d.root keys id)
    (parts : List Part) (hText : ∀ v, outcome = .ok v → ∃ text, v = .text text)
    (h' : (d.writeText id outcome).1.IsTree n) :
    Action.Rewrites w (.interpolate parts) keys outcome (d.freeze w.id)
      ((d.writeText id outcome).1.freeze w.id) (d.writeText id outcome).2 := by
  cases outcome with
  | error fault => exact .textFailed parts keys fault _
  | ok v =>
    obtain ⟨text, rfl⟩ := hText v rfl
    refine .textWritten parts (h.changedAt_setContent _ hleads h' w.id ?_)
    intro old fuel hc _
    exact freezeFrom_scalar hc

/-- What is written for a directive rewrites the document as its action demands. -/
theorem write_rewrites (h : d.IsTree n) (hbefore : d.HoldsAddressed) {x : Directive}
    (hfits : x.Fits n d) (hsits : x.action.SitsIn (d.slot? x.cell))
    (hleads : d.Leads d.root keys x.cell)
    (hText : ∀ parts v, x.action = .interpolate parts → outcome = .ok v →
      ∃ text, v = .text text)
    (haddressed : (d.write w x outcome).1.HoldsAddressed) :
    x.action.Rewrites w keys outcome (d.freeze w.id) ((d.write w x outcome).1.freeze w.id)
      (d.write w x outcome).2 := by
  have h' := (write_edits h w hfits.lt hfits.entries_eq_nil outcome).2
  have hid := hfits.lt
  rcases x with ⟨cell, f | f | f | parts⟩
  · obtain ⟨object, hslot⟩ := hsits
    exact writeMembers_rewrites h hid hleads hslot f h' haddressed
  · obtain ⟨array, index, hslot⟩ := hsits
    exact writeItems_rewrites h hbefore hid hleads hslot f h' haddressed
  · exact writeValue_rewrites h hbefore hid hleads f h' haddressed
  · exact writeText_rewrites h hleads parts (hText parts · rfl) h'

end Write

end Draft

end DocQuery
