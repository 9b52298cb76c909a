/-
How the values of a text are laid out in it.

* `valuesIn` — how many values begin in a list of tokens;
* `Cursor.Begins` — a value that begins at a cursor, and the token that it begins with;
* `Cursor.Shows` — the tokens between two cursors, and the values that begin with some of them;
* `Source.readValue_shows` — what a reader passes shows the values that it reads;
* `Cursor.Shows.split` — every string that is no name of a member begins a value;
* `readJson_shows` — a text that is read shows its values from its beginning to its end.

Design notes: a token either begins a value, or it is a comma, a closing bracket or a part of the
name of a member. So the values that begin in a list of tokens can be counted without looking at the
text, and a token is that of a value exactly if no colon comes behind it.
-/
import DocQuery.Proofs.Draft.Sites
import DocQuery.Proofs.Source.Grammar
import DocQuery.Proofs.Text.Escaping

namespace DocQuery

-- so that the tokens of a given text can be computed
deriving instance DecidableEq for Lexeme

/-- The number of values that begin in a list of tokens: those of its brackets that open, and of its
words but for the names of members, which have a colon behind them. -/
def valuesIn : List Lexeme → Nat
  | [] => 0
  | .text _ :: .mark ':' :: ls => valuesIn ls
  | .mark x :: ls => (if x = '{' ∨ x = '[' then 1 else 0) + valuesIn ls
  | _ :: ls => 1 + valuesIn ls

namespace Cursor

variable {c d e next : Cursor} {ls ms : List Lexeme} {l : Lexeme}

/-! ### Values and their first tokens -/

/-- Whether a value begins at a cursor, with a token that reaches up to another one. A string knows
the columns of its writings. -/
inductive Begins (c : Cursor) : Lexeme → Source → Cursor → Prop
  | object {members : List (String × Source)} {next : Cursor} : c.Spans [.mark '{'] next →
      Begins c (.mark '{') (.object members c.position) next
  | array {items : List Source} {next : Cursor} : c.Spans [.mark '['] next →
      Begins c (.mark '[') (.array items c.position) next
  | bare {spelling : String} {next : Cursor} : c.Spans [.bare spelling] next →
      Begins c (.bare spelling) (.scalar (.bare spelling) none c.position) next
  | text {content : String} {writings : List (List Char)} {next : Cursor} :
      c.Spans [.text content] next → c.rest = '"' :: (writings.flatten ++ '"' :: next.rest) →
      List.Forall₂ (Text.StandsFor '"') content.toList writings →
      Begins c (.text content) (.scalar (.quoted content) (Source.escapedColumns? c.position
        ((Text.starts writings).map (c.position.column + 1 + ·))) c.position) next

theorem Begins.spans {v : Source} (h : c.Begins l v next) : c.Spans [l] next := by
  cases h <;> assumption

/-- Whether the tokens `ls` stand between two cursors, and the values of the sites begin with some
of them, in this order. -/
inductive Shows : Cursor → List Lexeme → List Site → Cursor → Prop
  | done {c next : Cursor} : c.Spans [] next → Shows c [] [] next
  | mark {c d next : Cursor} {x : Char} {ls : List Lexeme} {sites : List Site} :
      x = ',' ∨ x = '}' ∨ x = ']' → c.Spans [.mark x] d → Shows d ls sites next →
        Shows c (.mark x :: ls) sites next
  | name {c d next : Cursor} {name : String} {ls : List Lexeme} {sites : List Site} :
      c.Spans [.text name, .mark ':'] d → Shows d ls sites next →
        Shows c (.text name :: .mark ':' :: ls) sites next
  | value {c d e next : Cursor} {l : Lexeme} {ls : List Lexeme} {key : Option Key} {v : Source}
      {sites : List Site} : c.Spans [] d → d.Begins l v e → Shows e ls sites next →
        Shows c (l :: ls) ((key, v) :: sites) next

theorem Begins.shows {v : Source} (h : c.Begins l v next) (key : Option Key) :
    c.Shows [l] [(key, v)] next :=
  .value c.spans_nil h (.done next.spans_nil)

namespace Shows

variable {sites more : List Site} {content : String}

theorem trans (h : c.Shows ls sites d) (h' : d.Shows ms more next) :
    c.Shows (ls ++ ms) (sites ++ more) next := by
  induction h with
  | done hblank =>
    -- white space at the end of the first part stands before the first token of the second one
    cases h' with
    | done hmore => exact .done (hblank.trans hmore)
    | mark hx hmore hrest => exact .mark hx (hblank.trans hmore) hrest
    | name hmore hrest => exact .name (hblank.trans hmore) hrest
    | value hmore hbegins hrest => exact .value (hblank.trans hmore) hbegins hrest
  | mark hx hspans _ ih => exact .mark hx hspans (ih h')
  | name hspans _ ih => exact .name hspans (ih h')
  | value hblank hbegins _ ih => exact .value hblank hbegins (ih h')

theorem skipBlank (h : c.skipBlank.Shows ls sites next) : c.Shows ls sites next :=
  (done c.spans_skipBlank).trans h

theorem spans (h : c.Shows ls sites next) : c.Spans ls next := by
  induction h with
  | done hblank => exact hblank
  | mark _ hspans _ ih => exact hspans.trans ih
  | name hspans _ ih => exact hspans.trans ih
  | value hblank hbegins _ ih => exact hblank.trans (hbegins.spans.trans ih)

theorem head_ne_colon (h : c.Shows ls sites next) : ls.head? ≠ some (.mark ':') := by
  intro hhead
  cases h with
  | done _ => cases hhead
  | mark hx _ _ =>
    obtain ⟨rfl⟩ := Lexeme.mark.inj (Option.some.inj hhead)
    revert hx
    decide
  | name _ _ => cases hhead
  | value _ hbegins _ => cases hbegins <;> cases hhead

/-- The values that begin in a list of tokens can be counted. -/
theorem valuesIn_eq (h : c.Shows ls sites next) : valuesIn ls = sites.length := by
  induction h with
  | done _ => rfl
  | @mark _ _ _ x _ _ hx _ _ ih =>
    have hopen : ¬ (x = '{' ∨ x = '[') := by rcases hx with rfl | rfl | rfl <;> decide
    rw [valuesIn, if_neg hopen, ih, Nat.zero_add]
  | name _ _ ih => rw [valuesIn, ih]
  | value _ hbegins hrest ih =>
    rw [List.length_cons, ← ih, Nat.add_comm]
    cases hbegins with
    | object _ => rfl
    | array _ => rfl
    | bare _ => rfl
    | text _ _ _ =>
      rw [valuesIn]
      · intro _ _ _ hcolon
        exact hrest.head_ne_colon (by rw [hcolon]; rfl)
      · nofun

/-- A string with no colon behind it begins a value. -/
theorem split (h : c.Shows (ls ++ .text content :: ms) sites next)
    (hms : ms.head? ≠ some (.mark ':')) :
    ∃ before key v behind d e, sites = before ++ (key, v) :: behind ∧ c.Shows ls before d ∧
      d.Begins (.text content) v e ∧ e.Shows ms behind next := by
  generalize hall : ls ++ .text content :: ms = all at h
  -- the string is the first token, or `ls` begins with what the first step passes
  induction h generalizing ls with
  | done _ => simp at hall
  | mark hx hspans _ ih =>
    rcases ls with _ | ⟨l, ls⟩
    · cases (List.cons.inj hall).1
    · obtain ⟨rfl, hrest⟩ := List.cons.inj hall
      obtain ⟨before, key, v, behind, d, e, rfl, hbefore, hv, hbehind⟩ := ih hrest
      exact ⟨before, key, v, behind, d, e, rfl, .mark hx hspans hbefore, hv, hbehind⟩
  | name hspans _ ih =>
    -- the name of a member is not the string, because a colon follows it
    rcases ls with _ | ⟨l, _ | ⟨colon, ls⟩⟩
    · obtain ⟨-, rfl⟩ := List.cons.inj hall
      exact absurd rfl hms
    · cases (List.cons.inj (List.cons.inj hall).2).1
    · obtain ⟨rfl, htail⟩ := List.cons.inj hall
      obtain ⟨rfl, hrest⟩ := List.cons.inj htail
      obtain ⟨before, key, v, behind, d, e, rfl, hbefore, hv, hbehind⟩ := ih hrest
      exact ⟨before, key, v, behind, d, e, rfl, .name hspans hbefore, hv, hbehind⟩
  | @value _ d e _ _ _ key v sites hblank hbegins hrest ih =>
    rcases ls with _ | ⟨l, ls⟩
    · obtain ⟨rfl, rfl⟩ := List.cons.inj hall
      exact ⟨[], key, v, sites, d, e, rfl, .done hblank, hbegins, hrest⟩
    · obtain ⟨rfl, htail⟩ := List.cons.inj hall
      obtain ⟨before, key', v', behind, d', e', rfl, hbefore, hv', hbehind⟩ := ih htail
      exact ⟨(key, v) :: before, key', v', behind, d', e', rfl, .value hblank hbegins hbefore, hv',
        hbehind⟩

end Shows

end Cursor

/-! ### What readers pass -/

namespace Source

open Cursor

variable {c next : Cursor} {s : Source}

/-- Whether what a reader passes shows the values that it reads. -/
def ValueReader.ShowsValues (read : ValueReader) : Prop :=
  ∀ {c s next} (key : Option Key), read c = .ok (s, next) →
    c.Shows s.outline.lexemes (s.sites key) next

theorem readText_begins (hquote : c.peek = some '"') (h : readText c = .ok (s, next)) :
    ∃ content columns, s = .scalar (.quoted content) columns c.position ∧
      c.Begins (.text content) s next := by
  rw [readText] at h
  obtain ⟨⟨⟨content, columns⟩, last⟩, hquoted, h⟩ := Except.bind_eq_ok_iff.1 h
  obtain ⟨rfl, rfl⟩ := Prod.mk.inj (Except.ok.inj h)
  have hread := Reading.value_eq_ok_iff.1 hquoted
  obtain ⟨quote, writings, -, hrest, hwritings, rfl, -⟩ := readQuoted_eq_ok_iff.1 hread
  obtain rfl : quote = '"' := by
    rw [peek, hrest] at hquote
    exact Option.some.inj hquote
  have hspans := (readQuoted_isBehind hread).spans (readQuoted_passes hquote hread)
  exact ⟨content, _, rfl, .text hspans hrest hwritings⟩

theorem readScalar_shows {first : Char} (hfirst : c.peek = some first) (key : Option Key)
    (h : readScalar first c = .ok (s, next)) : c.Shows s.outline.lexemes (s.sites key) next := by
  rw [readScalar] at h
  split at h
  · rename_i hquote
    obtain ⟨content, columns, rfl, hbegins⟩ := readText_begins (hquote ▸ hfirst) h
    exact hbegins.shows key
  · split at h
    · rw [readNumber] at h
      obtain ⟨⟨spelling, last⟩, hspelling, h⟩ := Except.bind_eq_ok_iff.1 h
      simp only at h
      split at h
      · rename_i hnumber
        obtain ⟨rfl, rfl⟩ := Prod.mk.inj (Except.ok.inj h)
        have hread := Reading.value_eq_ok_iff.1 hspelling
        have hpasses : c.Passes [.bare spelling] last :=
          passes_single (readNumber_rest hread) ⟨rfl, .inr (isNumber_iff.1 hnumber)⟩
        exact (Begins.bare ((readNumber_isBehind hread).spans hpasses)).shows key
      · cases h
    · split at h
      · rw [readWord] at h
        obtain ⟨⟨word, last⟩, hword, h⟩ := Except.bind_eq_ok_iff.1 h
        simp only at h
        split at h
        · rename_i hvalue
          obtain ⟨rfl, rfl⟩ := Prod.mk.inj (Except.ok.inj h)
          have hread := Reading.value_eq_ok_iff.1 hword
          have hpasses : c.Passes [.bare word] last :=
            passes_single (readName_rest hread) ⟨rfl, .inl (List.contains_iff_mem.1 hvalue)⟩
          exact (Begins.bare ((readName_spec hread).2.spans hpasses)).shows key
        · cases h
      · cases h

section Containers

variable {read : ValueReader} {start : Position} {fuel : Nat}

theorem readMembers_shows (hread : read.ShowsValues) {earlier : List String}
    {members : List (String × Source)} (hfuel : c.rest.length < fuel)
    (h : readMembers read start fuel earlier c = .ok (members, next)) :
    ∃ name s more, members = (name, s) :: more ∧
      c.Shows (.text name :: .mark ':' ::
        (s.outline.lexemes ++ Outline.memberLexemes (memberOutlines more)))
        (memberSites members) next := by
  induction fuel generalizing earlier c next members with
  | zero => exact absurd hfuel (Nat.not_lt_zero _)
  | succ fuel ih =>
    rw [readMembers] at h
    obtain ⟨⟨name, afterName⟩, hname, h⟩ := Except.bind_eq_ok_iff.1 h
    obtain ⟨⟨s, afterValue⟩, hvalue, h⟩ := Except.bind_eq_ok_iff.1 h
    obtain ⟨separation, hseparation, h⟩ := Except.bind_eq_ok_iff.1 h
    have hmember := Shows.name (readMemberName_spans hname) (hread (some (.member name)) hvalue)
    rcases readSeparator_spans hseparation with ⟨behind, rfl, hcomma⟩ | ⟨behind, rfl, hclose⟩
    · obtain ⟨⟨rest, last⟩, hrest, h⟩ := Except.bind_eq_ok_iff.1 h
      obtain ⟨rfl, rfl⟩ := Prod.mk.inj (Except.ok.inj h)
      -- behind the comma there is less text, for which the fuel is enough
      have hbehind := (hmember.spans.trans hcomma).passes.length_le
      simp only [List.length_append, List.length_cons] at hbehind
      obtain ⟨name', s', more, rfl, hentries⟩ := ih (by omega) hrest
      exact ⟨name, s, _, rfl, hmember.trans (.mark (.inl rfl) hcomma hentries)⟩
    · obtain ⟨rfl, rfl⟩ := Prod.mk.inj (Except.ok.inj h)
      exact ⟨name, s, [], rfl,
        hmember.trans (.mark (.inr (.inl rfl)) hclose (.done behind.spans_nil))⟩

theorem readItems_shows (hread : read.ShowsValues) {items : List Source} (index : Nat)
    (hfuel : c.rest.length < fuel) (h : readItems read start fuel c = .ok (items, next)) :
    ∃ s more, items = s :: more ∧
      c.Shows (s.outline.lexemes ++ Outline.itemLexemes (itemOutlines more))
        (itemSites index items) next := by
  induction fuel generalizing c next items index with
  | zero => exact absurd hfuel (Nat.not_lt_zero _)
  | succ fuel ih =>
    rw [readItems] at h
    obtain ⟨⟨s, afterValue⟩, hvalue, h⟩ := Except.bind_eq_ok_iff.1 h
    obtain ⟨separation, hseparation, h⟩ := Except.bind_eq_ok_iff.1 h
    have hitem := hread (some (.item index)) hvalue
    rcases readSeparator_spans hseparation with ⟨behind, rfl, hcomma⟩ | ⟨behind, rfl, hclose⟩
    · obtain ⟨⟨rest, last⟩, hrest, h⟩ := Except.bind_eq_ok_iff.1 h
      obtain ⟨rfl, rfl⟩ := Prod.mk.inj (Except.ok.inj h)
      have hbehind := (hitem.spans.trans hcomma).passes.length_le
      simp only [List.length_append, List.length_cons] at hbehind
      obtain ⟨s', more, rfl, hentries⟩ := ih (index + 1) (by omega) hrest
      exact ⟨s, _, rfl, hitem.trans (.mark (.inl rfl) hcomma hentries)⟩
    · obtain ⟨rfl, rfl⟩ := Prod.mk.inj (Except.ok.inj h)
      exact ⟨s, [], rfl, hitem.trans (.mark (.inr (.inr rfl)) hclose (.done behind.spans_nil))⟩

theorem readObject_shows (hread : read.ShowsValues) (hopen : c.peek = some '{') (key : Option Key)
    (h : readObject read c = .ok (s, next)) : c.Shows s.outline.lexemes (s.sites key) next := by
  have hbegins : ∀ members, c.Begins (.mark '{') (.object members c.position) (c.pass 1) :=
    fun _ => .object (passes_pass hopen).spans
  rw [readObject] at h
  simp only at h
  split at h
  · rename_i hclose
    obtain ⟨rfl, rfl⟩ := Prod.mk.inj (Except.ok.inj h)
    exact ((hbegins _).shows key).trans
      (.mark (.inr (.inl rfl)) (spans_passChar hclose).skipBlank (.done (Cursor.spans_nil _)))
  · obtain ⟨⟨members, last⟩, hmembers, h⟩ := Except.bind_eq_ok_iff.1 h
    obtain ⟨rfl, rfl⟩ := Prod.mk.inj (Except.ok.inj h)
    obtain ⟨name, s, more, rfl, hentries⟩ := readMembers_shows hread (Nat.lt_succ_self _) hmembers
    exact ((hbegins _).shows key).trans hentries.skipBlank

theorem readArray_shows (hread : read.ShowsValues) (hopen : c.peek = some '[') (key : Option Key)
    (h : readArray read c = .ok (s, next)) : c.Shows s.outline.lexemes (s.sites key) next := by
  have hbegins : ∀ items, c.Begins (.mark '[') (.array items c.position) (c.pass 1) :=
    fun _ => .array (passes_pass hopen).spans
  rw [readArray] at h
  simp only at h
  split at h
  · rename_i hclose
    obtain ⟨rfl, rfl⟩ := Prod.mk.inj (Except.ok.inj h)
    exact ((hbegins _).shows key).trans
      (.mark (.inr (.inr rfl)) (spans_passChar hclose).skipBlank (.done (Cursor.spans_nil _)))
  · obtain ⟨⟨items, last⟩, hitems, h⟩ := Except.bind_eq_ok_iff.1 h
    obtain ⟨rfl, rfl⟩ := Prod.mk.inj (Except.ok.inj h)
    obtain ⟨s, more, rfl, hentries⟩ := readItems_shows hread 0 (Nat.lt_succ_self _) hitems
    exact ((hbegins _).shows key).trans hentries.skipBlank

end Containers

/-- What is passed shows the values that are read, at any level. -/
theorem readValue_shows (levels : Nat) : (readValue levels).ShowsValues := by
  induction levels with
  | zero =>
    intro c s next key h
    rw [readValue.eq_def] at h
    simp only at h
    split at h
    · cases h
    · rename_i hfirst
      split at h
      · cases h
      · exact (readScalar_shows hfirst key h).skipBlank
  | succ levels ih =>
    intro c s next key h
    rw [readValue.eq_def] at h
    simp only at h
    split at h
    · cases h
    · rename_i first hfirst
      split at h
      · rename_i hbracket
        split at h
        · rename_i hbrace
          exact (readObject_shows ih (hbrace ▸ hfirst) key h).skipBlank
        · rename_i hbrace
          have hopen : first = '[' := by simpa [hbrace] using hbracket
          exact (readArray_shows ih (hopen ▸ hfirst) key h).skipBlank
      · exact (readScalar_shows hfirst key h).skipBlank

end Source

/-- A text that is read shows its values. -/
theorem readJson_shows {text : String} {source : Source} (h : readJson text = .ok source) :
    ∃ last : Cursor, last.rest = [] ∧
      (Cursor.ofText text .start).Shows source.outline.lexemes (source.sites none) last := by
  rw [readJson] at h
  obtain ⟨⟨value, next⟩, hvalue, h⟩ := Except.bind_eq_ok_iff.1 h
  simp only at h
  split at h
  · rename_i hend
    obtain rfl := Except.ok.inj h
    have hshows := (Source.readValue_shows _ none hvalue).trans (.done next.spans_skipBlank)
    rw [List.append_nil, List.append_nil] at hshows
    exact ⟨next.skipBlank, List.isEmpty_iff.1 hend, hshows⟩
  · cases h

end DocQuery
