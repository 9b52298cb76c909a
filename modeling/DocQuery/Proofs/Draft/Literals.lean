/-
The strings of a text, and the places that are counted to in them.

* `Cell.IsWrittenIn` — where a text has the string of a cell;
* `Draft.exists_isWrittenIn` — a text that is read has all strings of its cells;
* `Position.LiesIn` — a place in the writing of a string, from its opening to its closing quote;
* `Cell.IsWrittenIn.liesIn_after_iff` — a place that is counted to from a character lies there
  exactly if no line feed is counted on the way;
* `Draft.KeepsPlaces` — a draft whose cells are where those of another one were.

Design notes: a string begins and ends on one line, since a line feed in it is written as an escape.
Characters are counted as they read, and a line feed is counted as the end of a line. So counting
over one leaves the line of the string, and counting over other characters stays short of the
closing quote, because each of them is written with one character at least.
-/
import DocQuery.Proofs.Draft.Columns
import DocQuery.Proofs.Expr.Extent
import DocQuery.Proofs.Source.Places

namespace DocQuery

/-! ### Strings of a text -/

/-- Whether the string `content` of a cell is written between the quotes behind `before`, with one
of the writings for each of its characters, and the cell knows where they begin. -/
structure Cell.IsWrittenIn (c : Cell) (text content : String) (before : List Char)
    (writings : List (List Char)) : Prop where
  text_eq : ∃ behind, text.toList = before ++ '"' :: (writings.flatten ++ '"' :: behind)
  stands_for : List.Forall₂ (Text.StandsFor '"') content.toList writings
  position_eq : c.position = Position.start.after before
  textPosition_eq : ∀ k ≤ content.length,
    c.textPosition k = Position.start.after (before ++ '"' :: (writings.take k).flatten)

/-- A value of a site begins between the cursors that the site is shown between. -/
theorem Cursor.Shows.exists_begins {c next : Cursor} {ls : List Lexeme} {sites : List Site}
    (h : c.Shows ls sites next) {site : Site} (hsite : site ∈ sites) :
    ∃ before l behind d e, c.Spans before d ∧ d.Begins l site.2 e ∧ e.Spans behind next := by
  induction h with
  | done => cases hsite
  | mark _ hspans _ ih | name hspans _ ih =>
    obtain ⟨before, l, behind, d, e, hbefore, hbegins, hbehind⟩ := ih hsite
    exact ⟨_, l, behind, d, e, hspans.trans hbefore, hbegins, hbehind⟩
  | value hblank hbegins hrest ih =>
    rcases List.mem_cons.1 hsite with rfl | hsite
    · exact ⟨[], _, _, _, _, hblank, hbegins, hrest.spans⟩
    · obtain ⟨before, l, behind, d, e, hbefore, hlater, hbehind⟩ := ih hsite
      exact ⟨_, l, behind, d, e, hblank.trans (hbegins.spans.trans hbefore), hlater, hbehind⟩

/-- A text that is read has the strings of all its cells. -/
theorem Draft.exists_isWrittenIn {text : String} {tree : Source} (h : readJson text = .ok tree)
    {id : Nat} (hid : id ∈ (ofSource tree).order) {c : Cell}
    (hc : (ofSource tree).cells[id]? = some c)
    {content : String} (hcontent : c.content = .scalar ⟨content, true⟩) :
    ∃ before writings, c.IsWrittenIn text content before writings := by
  obtain ⟨last, hlast, hshows⟩ := readJson_shows h
  -- the cell is that of a site, which begins somewhere in the text
  obtain ⟨i, hi, rfl⟩ := List.getElem_of_mem hid
  have horder := order_sites (readJson_namesDiffer h)
  have hi' : i < (tree.sites none).length := horder.length_eq ▸ hi
  obtain ⟨-, c', hc', hholds⟩ := horder.get hi hi'
  rw [List.get_eq_getElem] at hholds
  obtain rfl := Option.some.inj (hc'.symm.trans hc)
  obtain ⟨ls, l, ms, d, e, hbefore, hbegins, hbehind⟩ :=
    hshows.exists_begins (List.getElem_mem hi')
  obtain ⟨before, hrest, hplace, -⟩ := hbefore
  obtain ⟨behind, -, -, -⟩ := hbehind
  generalize (tree.sites none)[i] = site at hholds hbegins
  obtain ⟨key, v⟩ := site
  simp only at hholds hbegins
  obtain rfl : l = .text content := by
    cases hbegins with
    | object | array =>
      cases hholds
      cases hcontent
    | bare =>
      cases hholds
      cases hcontent
    | text =>
      cases hholds
      cases hcontent
      rfl
  obtain ⟨-, hposition, writings, hwritten, hwritings, hplaces⟩ := hbegins.textPosition hholds
  rw [hwritten] at hrest
  refine ⟨before, writings, ⟨_, hrest⟩, hwritings, hposition.trans hplace, fun k hk => ?_⟩
  rw [hplaces k hk, hplace, Position.after_append]
  rfl

/-! ### Places in a string -/

/-- Whether a place lies in the writing of a string that stands behind `before`, from its opening to
its closing quote. -/
def Position.LiesIn (p : Position) (before : List Char) (writings : List (List Char)) : Prop :=
  (Position.start.after before).UpTo p ∧
    p.UpTo (Position.start.after (before ++ '"' :: writings.flatten))

namespace Position

variable {p q r : Position} {cs : List Char}

theorem line_le_after (p : Position) (cs : List Char) : p.line ≤ (p.after cs).line := by
  rcases eq_or_before_after p cs with heq | hlt | ⟨heq, -⟩
  · rw [heq]
  · exact hlt.le
  · exact heq.le

/-- Behind a line feed another line has begun. -/
theorem line_lt_after (h : '\n' ∈ cs) : p.line < (p.after cs).line := by
  obtain ⟨before, behind, rfl⟩ := List.append_of_mem h
  rw [after_append, after_cons, step, if_pos rfl]
  have hnext := line_le_after ⟨(p.after before).line + 1, 1⟩ behind
  exact (Nat.lt_succ_of_le (p.line_le_after before)).trans_le hnext

theorem upTo_shifted {m n : Nat} (h : m ≤ n) : (p.shifted m).UpTo (p.shifted n) := by
  rcases h.eq_or_lt with rfl | hlt
  · exact .refl _
  · exact .inr (.inr ⟨rfl, Nat.add_lt_add_left hlt _⟩)

theorem UpTo.line_le (h : p.UpTo q) : p.line ≤ q.line := by
  rcases h with rfl | hlt | ⟨heq, -⟩
  · exact Nat.le_refl _
  · exact hlt.le
  · exact heq.le

end Position

namespace Cell.IsWrittenIn

variable {c : Cell} {text content : String} {before passed : List Char}
  {writings : List (List Char)} {p : Position}

/-- Characters of a string are no more than those that they are written with. -/
theorem length_le_flatten_drop {quote : Char} {cs : List Char}
    (h : List.Forall₂ (Text.StandsFor quote) cs writings) (k : Nat) :
    (cs.drop k).length ≤ (writings.drop k).flatten.length := by
  have hdrop := List.forall₂_drop k h
  generalize cs.drop k = ds at hdrop ⊢
  generalize writings.drop k = ws at hdrop ⊢
  induction hdrop with
  | nil => exact Nat.le_refl _
  | cons hw _ ih =>
    rw [List.length_cons, List.flatten_cons, List.length_append]
    have hpos := List.length_pos_of_ne_nil hw.ne_nil
    omega

/-- The closing quote stands on the line of the opening one. -/
theorem after_writing (h : c.IsWrittenIn text content before writings) :
    Position.start.after (before ++ '"' :: writings.flatten) =
      (Position.start.after before).shifted (1 + writings.flatten.length) := by
  rw [Position.after_append, ← List.take_length (l := writings),
    Cursor.after_writings (.inr rfl) h.stands_for]

theorem liesIn_quote (h : c.IsWrittenIn text content before writings) :
    c.position.LiesIn before writings := by
  rw [Position.LiesIn, h.position_eq, h.after_writing]
  exact ⟨.refl _, Position.upTo_shifted (m := 0) (Nat.zero_le _)⟩

/-- A place that is counted to from a character, over characters behind it, lies in the writing of
the string exactly if no line feed is counted. -/
theorem liesIn_after_iff (h : c.IsWrittenIn text content before writings) {k : Nat}
    (hk : k ≤ content.length) (hpassed : passed <+: content.toList.drop k) :
    ((c.textPosition k).after passed).LiesIn before writings ↔ '\n' ∉ passed := by
  have hplace : c.textPosition k = (Position.start.after before).shifted
      (1 + (writings.take k).flatten.length) := by
    rw [h.textPosition_eq k hk, Position.after_append,
      Cursor.after_writings (.inr rfl) h.stands_for]
  rw [Position.LiesIn, h.after_writing, hplace]
  constructor
  · rintro ⟨-, hup⟩ hline
    have hlater := Position.line_lt_after (p := (Position.start.after before).shifted
      (1 + (writings.take k).flatten.length)) hline
    exact absurd hup.line_le (Nat.not_le.2 hlater)
  · intro hline
    have hlength : passed.length ≤ (writings.drop k).flatten.length :=
      hpassed.length_le.trans (length_le_flatten_drop h.stands_for k)
    have hsplit : (writings.take k).flatten.length + (writings.drop k).flatten.length =
        writings.flatten.length := by
      rw [← List.length_append, ← List.flatten_append, List.take_append_drop]
    have hshifted : ((Position.start.after before).shifted
        (1 + (writings.take k).flatten.length)).shifted passed.length =
          (Position.start.after before).shifted
            (1 + (writings.take k).flatten.length + passed.length) := by
      simp only [Position.shifted, Nat.add_assoc]
    rw [Position.after_eq_shifted hline, hshifted]
    exact ⟨Position.upTo_shifted (m := 0) (Nat.zero_le _), Position.upTo_shifted (by omega)⟩

end Cell.IsWrittenIn

/-! ### Places in a draft -/

namespace Draft

/-- Whether a draft has all cells of another one, where they begin in the text. -/
structure KeepsPlaces (d d' : Draft) : Prop where
  size_le : d.cells.size ≤ d'.cells.size
  positionOf_eq : ∀ id < d.cells.size, d'.positionOf id = d.positionOf id

variable {d d' d'' : Draft}

theorem KeepsPlaces.refl (d : Draft) : d.KeepsPlaces d := ⟨Nat.le_refl _, fun _ _ => rfl⟩

theorem KeepsPlaces.trans (h : d.KeepsPlaces d') (h' : d'.KeepsPlaces d'') : d.KeepsPlaces d'' where
  size_le := h.size_le.trans h'.size_le
  positionOf_eq id hid :=
    (h'.positionOf_eq id (hid.trans_le h.size_le)).trans (h.positionOf_eq id hid)

theorem keepsPlaces_modify (d : Draft) (id : Nat) {change : Cell → Cell}
    (hchange : ∀ c, (change c).position = c.position) :
    d.KeepsPlaces { d with cells := d.cells.modify id change } where
  size_le := by rw [Array.size_modify]
  positionOf_eq other _ := by
    rw [positionOf, positionOf, Array.getElem?_modify]
    split
    · cases d.cells[other]? with
      | none => rfl
      | some c => exact hchange c
    · rfl

theorem keepsPlaces_setContent (d : Draft) (id : Nat) (c : Content) :
    d.KeepsPlaces (d.setContent id c) :=
  d.keepsPlaces_modify id fun _ => rfl

theorem keepsPlaces_changeContent (d : Draft) (id : Nat) (change : Content → Content) :
    d.KeepsPlaces (d.changeContent id change) :=
  d.keepsPlaces_modify id fun _ => rfl

theorem keepsPlaces_spliceMember (d : Draft) (object : Nat) (name : String)
    (replacement : List (String × Nat)) :
    d.KeepsPlaces (d.spliceMember object name replacement) := by
  rw [spliceMember]
  exact d.keepsPlaces_changeContent _ _

theorem keepsPlaces_without (d : Draft) (id : Nat) : d.KeepsPlaces (d.without id) := by
  rw [without, remove?]
  cases d.slot? id with
  | none => exact .refl d
  | some slot => exact d.keepsPlaces_changeContent _ _

theorem keepsPlaces_addAll (d : Draft) (p : Position) (ns : List Node) :
    d.KeepsPlaces (d.addAll p ns).1 where
  size_le := by
    rw [size_addAll]
    exact Nat.le_add_right _ _
  positionOf_eq id hid := by
    rw [addAll_eq, positionOf, positionOf, Array.getElem?_append_left hid]

theorem keepsPlaces_writeMembers (d : Draft) (id : Nat) (outcome : Except Fault Value) :
    d.KeepsPlaces (d.writeMembers id outcome).1 := by
  unfold writeMembers
  split
  · simp only
    split
    · exact d.keepsPlaces_spliceMember _ _ _
    · exact (d.keepsPlaces_addAll _ _).trans (keepsPlaces_spliceMember _ _ _ _)
  · exact .refl d

theorem keepsPlaces_writeItems (w : Workshop) (d : Draft) (id : Nat)
    (outcome : Except Fault Value) : d.KeepsPlaces (d.writeItems w id outcome).1 := by
  unfold writeItems
  split
  · exact d.keepsPlaces_without id
  · rename_i v
    have hadded := d.keepsPlaces_addAll (d.positionOf id) (v.mergedItems w.id)
    simp only
    split
    · rename_i spliced hspliced
      rw [splice] at hspliced
      split at hspliced
      · obtain rfl := Except.ok.inj hspliced
        simp only
        exact hadded.trans (keepsPlaces_changeContent _ _ _)
      · cases hspliced
    · exact hadded

theorem keepsPlaces_writeValue (w : Workshop) (d : Draft) (id : Nat) (p : Position)
    (outcome : Except Fault Value) : d.KeepsPlaces (d.writeValue w id p outcome).1 := by
  unfold writeValue
  split
  · exact .refl d
  · split
    · exact d.keepsPlaces_setContent _ _
    · split
      · split
        · exact d.keepsPlaces_setContent _ _
        · exact d.keepsPlaces_without id
      · exact .refl d

theorem keepsPlaces_writeText (d : Draft) (id : Nat) (outcome : Except Fault Value) :
    d.KeepsPlaces (d.writeText id outcome).1 := by
  unfold writeText
  split
  · exact .refl d
  · exact d.keepsPlaces_setContent _ _

/-- Writing a result leaves all cells where they were. -/
theorem keepsPlaces_write (w : Workshop) (d : Draft) (x : Directive)
    (outcome : Except Fault Value) : d.KeepsPlaces (d.write w x outcome).1 := by
  rw [write]
  split
  · exact d.keepsPlaces_writeMembers _ _
  · exact keepsPlaces_writeItems w d _ _
  · exact keepsPlaces_writeValue w d _ _ _
  · exact d.keepsPlaces_writeText _ _

end Draft

end DocQuery
