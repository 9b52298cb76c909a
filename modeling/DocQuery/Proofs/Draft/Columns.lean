/-
The places of the characters of strings.

* `Cell.textPosition_eq` — whether the columns of a string were kept or not, its characters stand at
  them;
* `Cursor.Begins.textPosition` — a string that begins at a cursor has its characters where their
  writings begin;
* `Draft.textPosition_ofSource` — so do the strings of a text that is read, each in the cell that
  has as many cells before it as values begin before the string.

Design notes: columns are only kept if they differ from a plain count. Which of the two it is does
not matter, since a cell counts from the opening quote just as the reader does.
-/
import DocQuery.Proofs.Source.Layout

namespace DocQuery

/-- The columns of a string are those of its characters, kept or not. -/
theorem Cell.textPosition_eq (content : Content) (p : Position) {columns : List Nat}
    {k column : Nat} (h : columns[k]? = some column) :
    Cell.textPosition ⟨content, p, Source.escapedColumns? p columns⟩ k = ⟨p.line, column⟩ := by
  unfold Source.escapedColumns?
  split
  · rename_i hcount
    -- the columns are not kept, because they are those of a plain count
    have hk : k < columns.length := (List.getElem?_eq_some_iff.1 h).1
    rw [hcount, List.getElem?_range' hk, Nat.one_mul, Option.some_inj] at h
    rw [← h, Nat.add_assoc]
    rfl
  · simp [textPosition, h]

/-- A string that begins at a cursor has its characters where their writings begin. -/
theorem Cursor.Begins.textPosition {d e : Cursor} {content : String} {v : Source} {c : Cell}
    (h : d.Begins (.text content) v e) (hc : c.Holds v) :
    c.content = .scalar (.quoted content) ∧ c.position = d.position ∧
      ∃ writings, d.rest = '"' :: (writings.flatten ++ '"' :: e.rest) ∧
        List.Forall₂ (Text.StandsFor '"') content.toList writings ∧
        ∀ k ≤ content.length,
          c.textPosition k = d.position.after ('"' :: (writings.take k).flatten) := by
  cases h with
  | @text _ writings _ _ hrest hwritings =>
    cases hc
    refine ⟨rfl, rfl, writings, hrest, hwritings, fun k hk => ?_⟩
    have hlength : writings.length = content.length := by
      rw [← String.length_toList, hwritings.length_eq]
    obtain ⟨column, hcolumn, hafter⟩ :=
      getElem?_columns (.inr rfl) hwritings d.position (hlength ▸ hk)
    rw [hafter]
    exact Cell.textPosition_eq _ _ hcolumn

/-- A string of a text that is read, as long as it is no name of a member, is what one of the cells
holds: that one with as many cells before it as values begin before the string. Every character
stands where its writing begins in the text, and the offset behind the last one leads to the closing
quote. -/
theorem Draft.textPosition_ofSource {text : String} {tree : Source} (h : readJson text = .ok tree)
    {ls ms : List Lexeme} {content : String}
    (hlexemes : tree.outline.lexemes = ls ++ .text content :: ms)
    (hvalue : ms.head? ≠ some (.mark ':')) :
    ∃ id c before writings behind,
      (ofSource tree).order[valuesIn ls]? = some id ∧
      (ofSource tree).cells[id]? = some c ∧ c.content = .scalar (.quoted content) ∧
      text.toList = before ++ '"' :: (writings.flatten ++ '"' :: behind) ∧
      Spells ls before ∧ Spells ms behind ∧
      List.Forall₂ (Text.StandsFor '"') content.toList writings ∧
      c.position = Position.start.after before ∧
      ∀ k ≤ content.length,
        c.textPosition k = Position.start.after (before ++ '"' :: (writings.take k).flatten) := by
  obtain ⟨last, hlast, hshows⟩ := readJson_shows h
  rw [hlexemes] at hshows
  obtain ⟨before, key, v, behind, d, e, hsites, hbefore, hv, hbehind⟩ := hshows.split hvalue
  obtain ⟨as, has, hplace, hls⟩ := hbefore.spans
  obtain ⟨bs, hbs, -, hms⟩ := hbehind.spans
  -- the cells are those of the sites, in the same order
  have horder := order_sites (readJson_namesDiffer h)
  have hsite : (tree.sites none)[before.length]? = some (key, v) := by
    rw [hsites, List.getElem?_append_right (Nat.le_refl _), Nat.sub_self]
    rfl
  have hcell : ∃ id, (ofSource tree).order[before.length]? = some id ∧
      (ofSource tree).SitsAs id (key, v) := by
    obtain ⟨hlt, hsite⟩ := List.getElem?_eq_some_iff.1 hsite
    have hlt' : before.length < (ofSource tree).order.length := horder.length_eq ▸ hlt
    exact ⟨_, List.getElem?_eq_getElem hlt', hsite ▸ horder.get hlt' hlt⟩
  obtain ⟨id, hid, -, c, hc, hholds⟩ := hcell
  obtain ⟨hcontent, hposition, writings, hrest, hwritings, hplaces⟩ := hv.textPosition hholds
  have hbehindEq : e.rest = bs := by rw [hbs, hlast, List.append_nil]
  refine ⟨id, c, as, writings, bs, ?_, hc, hcontent, ?_, hls, hms, hwritings, ?_, fun k hk => ?_⟩
  · rw [hbefore.valuesIn_eq, hid]
  · rw [← hbehindEq, ← hrest]
    exact has
  · rw [hposition, hplace]
    rfl
  · rw [hplaces k hk, hplace, Position.after_append]
    rfl

/-- A string with an escape, which another one without any follows. -/
theorem Draft.textPosition_ofSource_escaped :
    ∃ tree, readJson "\x7b\"A\": \"x\\ny$(B)\", \"C\": \"$(D)\"\x7d" = .ok tree ∧
      ∃ id c before writings behind,
        (ofSource tree).order[1]? = some id ∧ (ofSource tree).cells[id]? = some c ∧
        c.content = .scalar (.quoted "x\ny$(B)") ∧
        "\x7b\"A\": \"x\\ny$(B)\", \"C\": \"$(D)\"\x7d".toList =
          before ++ '"' :: (writings.flatten ++ '"' :: behind) ∧
        Spells [.mark '\x7b', .text "A", .mark ':'] before ∧
        Spells [.mark ',', .text "C", .mark ':', .text "$(D)", .mark '\x7d'] behind ∧
        List.Forall₂ (Text.StandsFor '"') "x\ny$(B)".toList writings ∧
        c.position = Position.start.after before ∧
        ∀ k ≤ 7,
          c.textPosition k = Position.start.after (before ++ '"' :: (writings.take k).flatten) := by
  have hlexemes : (readJson "\x7b\"A\": \"x\\ny$(B)\", \"C\": \"$(D)\"\x7d").toOption.map
      (·.outline.lexemes) = some ([.mark '\x7b', .text "A", .mark ':'] ++ .text "x\ny$(B)" ::
        [.mark ',', .text "C", .mark ':', .text "$(D)", .mark '\x7d']) := by decide +kernel
  obtain ⟨tree, htree, hlexemes⟩ := Option.map_eq_some_iff.1 hlexemes
  have hread := Except.toOption_eq_some_iff.1 htree
  exact ⟨tree, hread, textPosition_ofSource hread hlexemes nofun⟩

end DocQuery
