/-
What is malformed in the strings of a text.

* `Reported` — a result that is there, or the faults for which it is not;
* `StringFaults` — what a string is reported for, by what is written in it;
* `SiteFaults` — what a value of a text is reported for;
* `Engine.detection_is_all_or_nothing` — a text is refused exactly when a value of it is malformed,
  and for what its values are reported for, in its order.

Design notes: the rules for strings say of what parts a string is made and not how it is searched,
and every string is one of theirs. What they report is the same whatever comes out of the other
strings, so the reports of a text are those of its values, one after the other.
-/
import DocQuery.Proofs.Directive.Shape
import DocQuery.Proofs.Directive.Splitting
import DocQuery.Proofs.Draft.Sites

namespace DocQuery

/-! ### Results and the faults for which they are not there -/

/-- Whether a result is there and no faults are, or the faults are there and it is not. -/
inductive Reported {α : Type} : Except (List Fault) α → List Fault → Prop
  | ok (a : α) : Reported (.ok a) []
  | error {faults : List Fault} : faults ≠ [] → Reported (.error faults) faults

namespace Reported

variable {α β γ : Type} {r : Except (List Fault) α} {faults more : List Fault}

theorem map (h : Reported r faults) (f : α → β) : Reported (r.map f) faults := by
  cases h with
  | ok a => exact .ok (f a)
  | error hne => exact .error hne

/-- Of two results both are there, or the faults of both are. -/
theorem gather {s : Except (List Fault) β} (f : α → β → γ) (h : Reported r faults)
    (hs : Reported s more) : Reported (gather f r s) (faults ++ more) := by
  cases h with
  | ok a =>
    cases hs with
    | ok b => exact .ok (f a b)
    | error hmore => exact .error hmore
  | error hne =>
    cases hs with
    | ok b =>
      rw [List.append_nil]
      exact .error hne
    | error hmore => exact .error (List.append_ne_nil_of_left_ne_nil hne _)

theorem unique (h : Reported r faults) (h' : Reported r more) : faults = more := by
  cases h with
  | ok a =>
    cases h'
    rfl
  | error hne =>
    cases h'
    rfl

theorem eq_error_iff (h : Reported r faults) : r = .error more ↔ faults = more ∧ more ≠ [] := by
  cases h with
  | ok a =>
    constructor
    · intro heq
      cases heq
    · rintro ⟨rfl, hne⟩
      exact absurd rfl hne
  | error hne =>
    constructor
    · intro heq
      cases heq
      exact ⟨rfl, hne⟩
    · rintro ⟨rfl, -⟩
      rfl

end Reported

/-! ### Strings -/

/-- What an expression is reported for that is written in a string. -/
def expressionFaults (d : Dialect) (content : List Char) (origin : Position) : List Fault :=
  match compileExpression d (String.ofList content) origin with
  | .ok _ => []
  | .error fault => [fault]

/-- What a part of the string in the cell `c` is reported for. -/
def Fragment.faults (d : Dialect) (c : Cell) : Fragment → List Fault
  | .text _ => []
  | .expression content offset => expressionFaults d content (c.textPosition offset)

/-- Whether a string is a call or the beginning of one that has no end. -/
def IsCall (cs : List Char) : Prop :=
  ∃ marker ∈ [valueMarker, mergeMarker],
    (∃ rest, cs = marker ++ rest ∧ NeverCloses rest) ∨
      ∃ body, cs = marker ++ body ++ [')'] ∧ IsEnclosed body

/-- What the string in the cell `c`, which has the key `key` in its container, is reported for. -/
inductive StringFaults (d : Dialect) (key : Option Key) (c : Cell) :
    List Char → List Fault → Prop
  /-- a call without an end, whatever else is wrong with it -/
  | unclosedCall {marker rest : List Char} : marker ∈ [valueMarker, mergeMarker] →
    NeverCloses rest →
      StringFaults d key c (marker ++ rest)
        [.malformed (.unclosedCall (String.ofList marker.dropLast))
          (c.textPosition (marker.length - 1))]
  | value {body : List Char} : IsEnclosed body →
    StringFaults d key c (valueMarker ++ body ++ [')'])
      (expressionFaults d body (c.textPosition valueMarker.length))
  | merge {body : List Char} {index : Nat} : key = some (.item index) → IsEnclosed body →
    StringFaults d key c (mergeMarker ++ body ++ [')'])
      (expressionFaults d body (c.textPosition mergeMarker.length))
  /-- items to merge, but not in an array -/
  | mergeOutside {body : List Char} : (∀ index, key ≠ some (.item index)) → IsEnclosed body →
    StringFaults d key c (mergeMarker ++ body ++ [')'])
      [.malformed .mergeOutsideArray c.position]
  /-- an expression without an end, whatever is wrong with those before it -/
  | unclosedPart {cs : List Char} {offset : Nat} : ¬ IsCall cs → SplitsInto 0 cs (.error offset) →
    StringFaults d key c cs [.malformed .unclosedInterpolation (c.textPosition offset)]
  | parts {cs : List Char} {fragments : List Fragment} : ¬ IsCall cs →
    SplitsInto 0 cs (.ok fragments) →
      StringFaults d key c cs (fragments.flatMap (Fragment.faults d c))

section Strings

variable {d : Dialect} {c : Cell} {key : Option Key} {slot : Option Slot} {cs : List Char}
  {faults : List Fault}

theorem compileIn_reported (d : Dialect) (content : List Char) (origin : Position) :
    Reported (compileIn d content origin) (expressionFaults d content origin) := by
  rw [compileIn, expressionFaults]
  rcases compileExpression d (String.ofList content) origin with fault | f
  · exact .error (List.cons_ne_nil fault [])
  · exact .ok f

theorem compileFragments_reported (d : Dialect) (c : Cell) (fragments : List Fragment) :
    Reported (compileFragments d c fragments) (fragments.flatMap (Fragment.faults d c)) := by
  induction fragments with
  | nil => exact .ok []
  | cons fragment fragments ih =>
    rw [List.flatMap_cons, compileFragments]
    refine Reported.gather _ ?_ ih
    cases fragment with
    | text content => exact .ok _
    | expression content offset => exact (compileIn_reported d content _).map _

/-- What is found in a string that is no call is what its parts are reported for. -/
theorem interpolationIn_reported {r : Except Nat (List Fragment)} (h : SplitsInto 0 cs r) :
    Reported (interpolationIn d c cs)
      (match r with
      | .error offset => [.malformed .unclosedInterpolation (c.textPosition offset)]
      | .ok fragments => fragments.flatMap (Fragment.faults d c)) := by
  have hsplit := splitInterpolation_eq_iff.2 h
  rw [interpolationIn]
  by_cases hinside : ['$', '('] <:+: cs
  · rw [if_pos (hasExpression_iff.2 hinside), hsplit]
    cases r with
    | error offset => exact .error (List.cons_ne_nil _ [])
    | ok fragments => exact (compileFragments_reported d c fragments).map _
  · rw [if_neg (mt hasExpression_iff.1 hinside)]
    -- the one part of the string is text
    obtain rfl : r = .ok (textFragments cs) :=
      hsplit.symm.trans (splitInterpolation_eq_iff.2 (.plain 0 hinside))
    have hnone : (textFragments cs).flatMap (Fragment.faults d c) = [] := by
      rw [textFragments]
      split
      · rfl
      · rfl
    simp only [hnone]
    exact .ok none

/-- What is found in a string that is no call is found in its parts. -/
theorem stringAction_of_not_isCall (h : ¬ IsCall cs) :
    stringAction d c slot cs = interpolationIn d c cs := by
  have hopen : ∀ marker ∈ [valueMarker, mergeMarker], ∀ rest, cs = marker ++ rest →
      ¬ NeverCloses rest := fun marker hmarker rest hcs hrest =>
    h ⟨marker, hmarker, .inl ⟨rest, hcs, hrest⟩⟩
  have hbody : ∀ marker ∈ [valueMarker, mergeMarker], callBody? marker cs = none := by
    intro marker hmarker
    obtain ⟨start, hstart⟩ := exists_of_mem_markers hmarker
    rw [Option.eq_none_iff_forall_ne_some]
    exact fun body hbody =>
      h ⟨marker, hmarker, .inr ⟨body, (callBody?_eq_some_iff hstart).1 hbody⟩⟩
  unfold stringAction
  simp only [find?_open_eq_none hopen, hbody valueMarker List.mem_cons_self,
    hbody mergeMarker (List.mem_cons_of_mem _ List.mem_cons_self)]

/-- What is found in a string, or its faults, are what the string is reported for. -/
theorem StringFaults.reported (h : StringFaults d key c cs faults)
    (hkey : slot.map Slot.key = key) : Reported (stringAction d c slot cs) faults := by
  cases h with
  | unclosedCall hmarker hrest =>
    rw [stringAction_of_unclosed hmarker hrest]
    exact .error (List.cons_ne_nil _ [])
  | @value body hbody =>
    rw [stringAction_of_value hbody]
    exact (compileIn_reported d body _).map _
  | @merge body index hitem hbody =>
    obtain ⟨s, rfl, hs⟩ := Option.map_eq_some_iff.1 (hkey.trans hitem)
    cases s with
    | member object name => cases hs
    | item array i =>
      rw [stringAction_of_merge hbody]
      exact (compileIn_reported d body _).map _
  | mergeOutside hout hbody =>
    rw [stringAction_of_mergeOutside hbody]
    · exact .error (List.cons_ne_nil _ [])
    · rintro array index rfl
      exact hout index hkey.symm
  | unclosedPart hcall hsplits =>
    rw [stringAction_of_not_isCall hcall]
    exact interpolationIn_reported hsplits
  | parts hcall hsplits =>
    rw [stringAction_of_not_isCall hcall]
    exact interpolationIn_reported hsplits

/-- The rules for strings are about every string. -/
theorem exists_stringFaults (d : Dialect) (key : Option Key) (c : Cell) (cs : List Char) :
    ∃ faults, StringFaults d key c cs faults := by
  by_cases hcall : IsCall cs
  · obtain ⟨marker, hmarker, ⟨rest, rfl, hrest⟩ | ⟨body, rfl, hbody⟩⟩ := hcall
    · exact ⟨_, .unclosedCall hmarker hrest⟩
    · rcases List.mem_pair.1 hmarker with rfl | rfl
      · exact ⟨_, .value hbody⟩
      · by_cases hitem : ∃ index, key = some (.item index)
        · obtain ⟨index, hindex⟩ := hitem
          exact ⟨_, .merge hindex hbody⟩
        · exact ⟨_, .mergeOutside (not_exists.1 hitem) hbody⟩
  · obtain ⟨r, hr⟩ := exists_splitsInto 0 cs
    cases r with
    | error offset => exact ⟨_, .unclosedPart hcall hr⟩
    | ok fragments => exact ⟨_, .parts hcall hr⟩

end Strings

/-! ### Values of a text -/

/-- Whether a value of a text is a string. -/
def Source.IsString (s : Source) : Prop :=
  ∃ text columns position, s = .scalar ⟨text, true⟩ columns position

/-- What a value of a text is reported for, with the key that it has in the container around it. -/
inductive SiteFaults (d : Dialect) : Site → List Fault → Prop
  | copyFields (text : String) (columns : Option (List Nat)) (position : Position) :
    SiteFaults d (some (.member copyFieldsName), .scalar ⟨text, true⟩ columns position)
      (expressionFaults d text.toList
        ((⟨.scalar ⟨text, true⟩, position, columns⟩ : Cell).textPosition 0))
  /-- members to copy, but no string that says which -/
  | copyFieldsNotText {value : Source} : ¬ value.IsString →
    SiteFaults d (some (.member copyFieldsName), value)
      [.malformed .copyFieldsNotText value.position]
  | string {key : Option Key} {text : String} {columns : Option (List Nat)}
    {position : Position} {faults : List Fault} : key ≠ some (.member copyFieldsName) →
      StringFaults d key ⟨.scalar ⟨text, true⟩, position, columns⟩ text.toList faults →
        SiteFaults d (key, .scalar ⟨text, true⟩ columns position) faults
  /-- what is no string is nothing to compute -/
  | other {key : Option Key} {value : Source} : key ≠ some (.member copyFieldsName) →
    ¬ value.IsString → SiteFaults d (key, value) []

/-- Whether a value of a text is reported for anything. -/
def IsMalformed (d : Dialect) (site : Site) : Prop :=
  ∃ faults, SiteFaults d site faults ∧ faults ≠ []

section Sites

variable {d : Dialect} {draft : Draft} {slot : Option Slot} {c : Cell} {site : Site}
  {faults : List Fault}

theorem isCopyFields_iff :
    slot.any Slot.isCopyFields = true ↔ slot.map Slot.key = some (.member copyFieldsName) := by
  rcases slot with _ | ⟨object, name⟩ | ⟨array, index⟩
  · simp
  · simp [Slot.isCopyFields, Slot.key]
  · simp [Slot.isCopyFields, Slot.key]

/-- A cell that holds no string has none for its contents. -/
theorem Cell.Holds.content_ne {value : Source} (h : c.Holds value) (hvalue : ¬ value.IsString)
    (text : String) : c.content ≠ .scalar ⟨text, true⟩ := by
  cases h with
  | object => nofun
  | array => nofun
  | scalar s columns position =>
    intro heq
    obtain rfl := Content.scalar.inj heq
    exact hvalue ⟨text, columns, position, rfl⟩

theorem Cell.Holds.position_eq {value : Source} (h : c.Holds value) :
    c.position = value.position := by
  cases h with
  | object => rfl
  | array => rfl
  | scalar => rfl

/-- What is found in a cell, or its faults, are what the value in it is reported for. -/
theorem SiteFaults.reported (h : SiteFaults d site faults) (hslot : slot.map Slot.key = site.1)
    (hholds : c.Holds site.2) : Reported (cellAction d c slot) faults := by
  rw [cellAction]
  cases h with
  | copyFields text columns position =>
    rw [if_pos (isCopyFields_iff.2 hslot)]
    cases hholds
    exact (compileIn_reported d _ _).map _
  | @copyFieldsNotText value hvalue =>
    rw [if_pos (isCopyFields_iff.2 hslot), copyFieldsAction]
    split
    · rename_i text hcontent
      exact absurd hcontent (hholds.content_ne hvalue text)
    · rw [hholds.position_eq]
      exact .error (List.cons_ne_nil _ [])
  | string hkey hstring =>
    rw [if_neg fun hcopy => hkey (hslot.symm.trans (isCopyFields_iff.1 hcopy))]
    cases hholds
    exact hstring.reported hslot
  | @other key value hkey hvalue =>
    rw [if_neg fun hcopy => hkey (hslot.symm.trans (isCopyFields_iff.1 hcopy))]
    split
    · rename_i text hcontent
      exact absurd hcontent (hholds.content_ne hvalue text)
    · exact .ok none

/-- The rules for values are about every value. -/
theorem exists_siteFaults (d : Dialect) (site : Site) : ∃ faults, SiteFaults d site faults := by
  obtain ⟨key, value⟩ := site
  by_cases hstring : value.IsString
  · obtain ⟨text, columns, position, rfl⟩ := hstring
    by_cases hkey : key = some (.member copyFieldsName)
    · subst hkey
      exact ⟨_, .copyFields text columns position⟩
    · obtain ⟨faults, hfaults⟩ := exists_stringFaults d key
        ⟨.scalar ⟨text, true⟩, position, columns⟩ text.toList
      exact ⟨faults, .string hkey hfaults⟩
  · by_cases hkey : key = some (.member copyFieldsName)
    · subst hkey
      exact ⟨_, .copyFieldsNotText hstring⟩
    · exact ⟨[], .other hkey hstring⟩

theorem directiveOf_reported {id : Nat} (h : SiteFaults d site faults)
    (hsits : draft.SitsAs id site) : Reported (directiveOf d draft id) faults := by
  obtain ⟨hslot, c, hc, hholds⟩ := hsits
  rw [directiveOf, hc]
  exact (h.reported hslot hholds).map _

/-- What is found in cells, or their faults, are what the values in them are reported for, one after
the other. -/
theorem directivesOf_reported {ids : List Nat} {sites : List Site} {lists : List (List Fault)}
    (hsits : List.Forall₂ draft.SitsAs ids sites)
    (h : List.Forall₂ (SiteFaults d) sites lists) :
    Reported (directivesOf d draft ids) lists.flatten := by
  induction hsits generalizing lists with
  | nil =>
    cases h
    exact .ok []
  | cons hfirst _ ih =>
    cases h with
    | cons hsite hrest => exact (directiveOf_reported hsite hfirst).gather _ (ih hrest)

/-- A value is reported for the same in every text in which it has its key. -/
theorem SiteFaults.unique {more : List Fault} (h : SiteFaults d site faults)
    (h' : SiteFaults d site more) : faults = more := by
  obtain ⟨key, value⟩ := site
  -- a slot and a cell as they could be in a draft
  have hslot : ∃ slot : Option Slot, slot.map Slot.key = key := by
    cases key with
    | none => exact ⟨none, rfl⟩
    | some key =>
      cases key with
      | member name => exact ⟨some (.member 0 name), rfl⟩
      | item index => exact ⟨some (.item 0 index), rfl⟩
  have hcell : ∃ c : Cell, c.Holds value := by
    cases value with
    | object members position => exact ⟨_, .object [] members position⟩
    | array items position => exact ⟨_, .array [] items position⟩
    | scalar s columns position => exact ⟨_, .scalar s columns position⟩
  obtain ⟨slot, hslot⟩ := hslot
  obtain ⟨c, hholds⟩ := hcell
  exact (h.reported hslot hholds).unique (h'.reported hslot hholds)

/-- The directives of a text, or its faults, are what its values are reported for. -/
theorem detect_reported {s : Source} (hs : s.NamesDiffer) {lists : List (List Fault)}
    (h : List.Forall₂ (SiteFaults d) (s.sites none) lists) :
    Reported (detect d (.ofSource s)) lists.flatten :=
  (directivesOf_reported (Draft.order_sites hs) h).map _

end Sites

/-! ### Texts -/

/-- Work begins only if no directive is malformed. -/
theorem Workshop.run_eq_error_iff {w : Workshop} {d : Dialect} {draft : Draft}
    {faults : List Fault} : w.run d draft = .error faults ↔ detect d draft = .error faults := by
  rw [Workshop.run]
  rcases detect d draft with found | directives
  · constructor
    · intro h
      cases h
      rfl
    · intro h
      cases h
      rfl
  · constructor
    · intro h
      cases h
    · intro h
      cases h

namespace Engine

/-- The work on a text is refused exactly when a value of the text is malformed, and then for what
its values are reported for, in the order of the text. Nothing has been computed by then, so that it
does not matter what the work is done with, the draft is that of the text, and there is no finished
document. -/
theorem detection_is_all_or_nothing {e : Engine} {source : SourceText} {parents : List Document}
    {tree : Source} (hread : readJson source.text = .ok tree) :
    ((tree.sites none).map (·.2.position)).Pairwise Position.Before ∧
    ((∃ faults, (e.workshop source parents).run e.dialect (.ofSource tree) = .error faults) ↔
      ∃ site ∈ tree.sites none, IsMalformed e.dialect site) ∧
    ∀ faults, (e.workshop source parents).run e.dialect (.ofSource tree) = .error faults →
      (∃ lists, List.Forall₂ (SiteFaults e.dialect) (tree.sites none) lists ∧
        faults = lists.flatten) ∧
      (∀ w : Workshop, w.run e.dialect (.ofSource tree) = .error faults) ∧
      e.states source parents tree = [⟨.ofSource tree, []⟩] ∧
      e.compileWithParents source parents = ⟨[], faults.map (.ofFault source.id)⟩ := by
  choose reports hreports using exists_siteFaults e.dialect
  have hlists : List.Forall₂ (SiteFaults e.dialect) (tree.sites none)
      ((tree.sites none).map reports) :=
    List.forall₂_map_right_iff.2 (List.forall₂_same.2 fun site _ => hreports site)
  have hdetect := detect_reported (readJson_namesDiffer hread) hlists
  refine ⟨?_, ?_, ?_⟩
  · rw [Source.positions_sites]
    exact readJson_ordered hread
  · simp only [Workshop.run_eq_error_iff, hdetect.eq_error_iff]
    constructor
    · rintro ⟨_, rfl, hne⟩
      obtain ⟨faults, hmem, hfaults⟩ := List.flatten_ne_nil_iff.1 hne
      obtain ⟨site, hsite, rfl⟩ := List.mem_map.1 hmem
      exact ⟨site, hsite, _, hreports site, hfaults⟩
    · rintro ⟨site, hsite, faults, hfaults, hne⟩
      refine ⟨_, rfl, fun hnone => hne ?_⟩
      rw [hfaults.unique (hreports site)]
      exact List.flatten_eq_nil_iff.1 hnone _ (List.mem_map_of_mem hsite)
  · intro faults hfaults
    have hmalformed := Workshop.run_eq_error_iff.1 hfaults
    refine ⟨⟨_, hlists, (hdetect.eq_error_iff.1 hmalformed).1.symm⟩, ?_, ?_, ?_⟩
    · exact fun w => Workshop.run_eq_error_iff.2 hmalformed
    · rw [states, hmalformed]
    · exact e.compileWithParents_of_faults parents hread hmalformed

/-- A text with a malformed string of each kind, and with calls and an expression that are well
formed. -/
theorem detection_is_all_or_nothing_mixed :
    let text := "\x7b\"A\":\"$value(1 +)\",\"B\":[\"$merge(X\",\"$merge(Y)\"],\"C\":\"$merge(Y)\"," ++
      "\"$copyFields\":1,\"D\":\"a $(1+) b $(2) c $(2+)\",\"E\":\"$(\",\"F\":\"$value(1)\"\x7d"
    let e : Engine := .standard (.midnight ⟨2024, 1, 1⟩)
    ∃ tree faults, readJson text = .ok tree ∧
      (e.workshop ⟨"T", text⟩ []).run e.dialect (.ofSource tree) = .error faults ∧
      faults.length = 7 ∧ ∃ site ∈ tree.sites none, IsMalformed e.dialect site := by
  intro text e
  have hfound : (readJson text).toOption.isSome ∧
      (e.compileWithParents ⟨"T", text⟩ []).documents.length = 0 ∧
        (e.compileWithParents ⟨"T", text⟩ []).reports.length = 7 := by
    decide +kernel
  clear_value text
  obtain ⟨hsome, hdocuments, hreports⟩ := hfound
  obtain ⟨tree, htree⟩ := Option.isSome_iff_exists.1 hsome
  have hread : readJson text = .ok tree := Except.toOption_eq_some_iff.1 htree
  cases hdetect : detect e.dialect (.ofSource tree) with
  | ok directives =>
    rw [@compileWithParents_eq e ⟨"T", text⟩ [] tree directives hread hdetect] at hdocuments
    cases hdocuments
  | error faults =>
    rw [@compileWithParents_of_faults e ⟨"T", text⟩ [] tree faults hread hdetect,
      List.length_map] at hreports
    have hrun : (e.workshop ⟨"T", text⟩ []).run e.dialect (.ofSource tree) = .error faults :=
      Workshop.run_eq_error_iff.2 hdetect
    obtain ⟨-, hiff, -⟩ := @detection_is_all_or_nothing e ⟨"T", text⟩ [] tree hread
    exact ⟨tree, faults, hread, hrun, hreports, hiff.1 ⟨faults, hrun⟩⟩

end Engine

end DocQuery
