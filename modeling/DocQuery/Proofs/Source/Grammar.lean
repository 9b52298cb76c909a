/-
Which texts are JSON texts.

* `Lexeme`, `Outline.lexemes` — the tokens of JSON, and those of a structure from left to right;
* `Spells` — a text consists of tokens with white space around them;
* `Outline.IsWritten` — a text is a JSON text of a structure;
* `Cursor.Passes` — the tokens between two cursors;
* `Cursor.Spans` — the same, of two cursors of which the second one knows its place;
* `Source.readValue_sound` — what is read is spelled so, and nothing nests too deep.

Design notes: white space belongs to the token behind it, and that at the end of a text to nothing.
So the texts of two lists of tokens, one behind the other, are a text of both.
-/
import DocQuery.Proofs.Expr.Lexing
import DocQuery.Proofs.Source.Number
import DocQuery.Proofs.Source.Outline
import DocQuery.Proofs.Text.Quoting

namespace DocQuery

/-- A token of JSON text: a bracket, a colon or a comma, a string by what it means, or a number or
word by its spelling. -/
inductive Lexeme where
  | mark (c : Char)
  | text (content : String)
  | bare (spelling : String)

/-- Whether a token is written as `cs`. -/
def Lexeme.IsSpelled (cs : List Char) : Lexeme → Prop
  | .mark c => cs = [c]
  | .text content =>
    cs.head? = some '"' ∧
      ∃ q, Text.readQuoted cs = .ok q ∧ q.width = cs.length ∧ String.ofList q.text = content
  | .bare spelling => cs = spelling.toList ∧ (spelling ∈ Source.jsonWords ∨ Source.IsNumber cs)

/-- Whether a text consists of these tokens, with white space around them. -/
inductive Spells : List Lexeme → List Char → Prop
  | nil {blanks : List Char} : (∀ c ∈ blanks, Text.isBlank c) → Spells [] blanks
  | cons {blanks cs rest : List Char} {l : Lexeme} {ls : List Lexeme} :
    (∀ c ∈ blanks, Text.isBlank c) → l.IsSpelled cs → Spells ls rest →
      Spells (l :: ls) (blanks ++ (cs ++ rest))

namespace Outline

mutual

/-- The tokens of a JSON text from left to right. -/
def lexemes : Outline → List Lexeme
  | .object [] => [.mark '{', .mark '}']
  | .object ((name, o) :: members) =>
    .mark '{' :: .text name :: .mark ':' :: (o.lexemes ++ memberLexemes members)
  | .array [] => [.mark '[', .mark ']']
  | .array (o :: items) => .mark '[' :: (o.lexemes ++ itemLexemes items)
  | .scalar s => if s.isQuoted then [.text s.text] else [.bare s.text]

/-- The tokens of the members after the first one, and of the closing brace. -/
def memberLexemes : List (String × Outline) → List Lexeme
  | [] => [.mark '}']
  | (name, o) :: members =>
    .mark ',' :: .text name :: .mark ':' :: (o.lexemes ++ memberLexemes members)

/-- The tokens of the items after the first one, and of the closing bracket. -/
def itemLexemes : List Outline → List Lexeme
  | [] => [.mark ']']
  | o :: items => .mark ',' :: (o.lexemes ++ itemLexemes items)

end

/-- Whether a text is a JSON text of this structure: it consists of its tokens, no object has two
members of one name, and containers nest at most 128 deep. -/
def IsWritten (o : Outline) (cs : List Char) : Prop :=
  Spells o.lexemes cs ∧ o.Fits 128

end Outline

/-! ### White space and tokens -/

theorem spells_blank {blanks cs : List Char} {ls : List Lexeme} (h : ∀ c ∈ blanks, Text.isBlank c)
    (hcs : Spells ls cs) : Spells ls (blanks ++ cs) := by
  cases hcs with
  | nil hmore => exact .nil (List.forall_mem_append.2 ⟨h, hmore⟩)
  | cons hmore hl hrest =>
    rw [← List.append_assoc]
    exact .cons (List.forall_mem_append.2 ⟨h, hmore⟩) hl hrest

theorem Spells.append {ls ms : List Lexeme} {cs ds : List Char} (h : Spells ls cs)
    (h' : Spells ms ds) : Spells (ls ++ ms) (cs ++ ds) := by
  induction h with
  | nil hblanks => exact spells_blank hblanks h'
  | cons hblanks hl _ ih =>
    rw [List.append_assoc, List.append_assoc]
    exact .cons hblanks hl ih

/-- The text of two lists of tokens can be cut between them. -/
theorem Spells.exists_append {ls ms : List Lexeme} {cs : List Char} (h : Spells (ls ++ ms) cs) :
    ∃ as bs, cs = as ++ bs ∧ Spells ls as ∧ Spells ms bs := by
  induction ls generalizing cs with
  | nil => exact ⟨[], cs, rfl, .nil nofun, h⟩
  | cons l ls ih =>
    cases h with
    | cons hblanks hl hrest =>
      obtain ⟨as, bs, rfl, hls, hms⟩ := ih hrest
      refine ⟨_, bs, ?_, .cons hblanks hl hls, hms⟩
      rw [List.append_assoc, List.append_assoc]

theorem Lexeme.IsSpelled.ne_nil {l : Lexeme} {cs : List Char} (h : l.IsSpelled cs) : cs ≠ [] := by
  rintro rfl
  cases l with
  | mark c => simp [IsSpelled] at h
  | text content => simp [IsSpelled] at h
  | bare spelling =>
    obtain ⟨hnil, hword | ⟨n, hn, -, hnumber⟩⟩ := h
    · obtain rfl : spelling = "" := String.toList_eq_nil_iff.1 hnil.symm
      exact absurd hword (by decide)
    · obtain ⟨c, rest, hhead, -⟩ := hn.spelling_head
      rw [hhead] at hnumber
      simp at hnumber

theorem Spells.length_le {ls : List Lexeme} {cs : List Char} (h : Spells ls cs) :
    ls.length ≤ cs.length := by
  induction h with
  | nil _ => exact Nat.zero_le _
  | cons _ hl _ ih =>
    have hpos := List.length_pos_of_ne_nil hl.ne_nil
    rw [List.length_cons, List.length_append, List.length_append]
    omega

theorem spells_token {l : Lexeme} {ls : List Lexeme} {cs rest : List Char} (hl : l.IsSpelled cs)
    (hls : Spells ls rest) : Spells (l :: ls) (cs ++ rest) := by
  show Spells (l :: ls) ([] ++ (cs ++ rest))
  exact .cons (List.forall_mem_nil _) hl hls

theorem spells_single {l : Lexeme} {cs : List Char} (hl : l.IsSpelled cs) : Spells [l] cs := by
  rw [← List.append_nil cs]
  exact spells_token hl (.nil (List.forall_mem_nil _))

namespace Cursor

variable {c d next : Cursor} {ls ms : List Lexeme}

/-- Whether the tokens `ls` stand between two cursors. -/
def Passes (c : Cursor) (ls : List Lexeme) (next : Cursor) : Prop :=
  ∃ cs, c.rest = cs ++ next.rest ∧ Spells ls cs

theorem Passes.trans (h : c.Passes ls d) (h' : d.Passes ms next) : c.Passes (ls ++ ms) next := by
  obtain ⟨cs, hcs, hls⟩ := h
  obtain ⟨ds, hds, hms⟩ := h'
  exact ⟨cs ++ ds, by rw [hcs, hds, List.append_assoc], hls.append hms⟩

theorem Passes.cons {l : Lexeme} (h : c.Passes [l] d) (h' : d.Passes ls next) :
    c.Passes (l :: ls) next :=
  h.trans h'

theorem Passes.length_le (h : c.Passes ls next) : next.rest.length + ls.length ≤ c.rest.length := by
  obtain ⟨cs, hcs, hls⟩ := h
  have hlength := hls.length_le
  rw [hcs, List.length_append]
  omega

theorem passes_single {l : Lexeme} {cs : List Char} (h : c.rest = cs ++ next.rest)
    (hl : l.IsSpelled cs) : c.Passes [l] next :=
  ⟨cs, h, spells_single hl⟩

theorem rest_eq_append_dropBlank (c : Cursor) :
    c.rest = c.rest.takeWhile Text.isBlank ++ Text.dropBlank c.rest :=
  List.takeWhile_append_dropWhile.symm

theorem skipBlank_rest (c : Cursor) : c.skipBlank.rest = Text.dropBlank c.rest := by
  show c.rest.drop (c.rest.takeWhile Text.isBlank).length = _
  nth_rewrite 2 [rest_eq_append_dropBlank c]
  rw [List.drop_left]

theorem passes_skipBlank (c : Cursor) : c.Passes [] c.skipBlank := by
  refine ⟨c.rest.takeWhile Text.isBlank, ?_, .nil fun _ => List.mem_takeWhile_imp⟩
  rw [skipBlank_rest]
  exact c.rest_eq_append_dropBlank

/-- White space does not count. -/
theorem Passes.skipBlank (h : c.skipBlank.Passes ls next) : c.Passes ls next :=
  c.passes_skipBlank.trans h

theorem passChar?_eq_some_iff {x : Char} :
    c.passChar? x = some next ↔ c.rest.head? = some x ∧ next = c.pass 1 := by
  rw [passChar?, passWord?, startsWith]
  rcases c.rest with _ | ⟨d, rest⟩
  · simp
  · rw [List.isPrefixOf_cons_cons, List.isPrefixOf_nil_left, Bool.and_true, List.head?_cons,
      Option.some_inj]
    by_cases h : x = d
    · rw [if_pos (by simpa using h), Option.some_inj]
      exact ⟨fun hnext => ⟨h.symm, hnext.symm⟩, fun hboth => hboth.2.symm⟩
    · rw [if_neg (by simpa using h)]
      exact ⟨nofun, fun hboth => absurd hboth.1.symm h⟩

theorem passes_passChar {x : Char} (h : c.passChar? x = some next) : c.Passes [.mark x] next := by
  obtain ⟨hhead, rfl⟩ := passChar?_eq_some_iff.1 h
  obtain ⟨rest, hrest⟩ := List.head?_eq_some_iff.1 hhead
  have hcut : c.rest = [x] ++ (c.pass 1).rest := by
    rw [hrest, pass, hrest]
    rfl
  exact passes_single hcut rfl

/-! ### Tokens and places -/

/-- Whether the tokens `ls` stand between two cursors, and the second one knows where it is. -/
def Spans (c : Cursor) (ls : List Lexeme) (next : Cursor) : Prop :=
  ∃ cs, c.rest = cs ++ next.rest ∧ next.position = c.position.after cs ∧ Spells ls cs

theorem Spans.passes (h : c.Spans ls next) : c.Passes ls next := by
  obtain ⟨cs, hrest, -, hls⟩ := h
  exact ⟨cs, hrest, hls⟩

theorem spans_nil (c : Cursor) : c.Spans [] c :=
  ⟨[], rfl, rfl, .nil (List.forall_mem_nil _)⟩

theorem Spans.trans (h : c.Spans ls d) (h' : d.Spans ms next) : c.Spans (ls ++ ms) next := by
  obtain ⟨cs, hcs, hposition, hls⟩ := h
  obtain ⟨ds, hds, hposition', hms⟩ := h'
  refine ⟨cs ++ ds, by rw [hcs, hds, List.append_assoc], ?_, hls.append hms⟩
  rw [hposition', hposition, Position.after_append]

/-- What is passed is known by its length. -/
theorem Passes.spans {n : Nat} (h : c.Passes ls (c.pass n)) : c.Spans ls (c.pass n) := by
  obtain ⟨cs, hcs, hls⟩ := h
  have hcut : c.rest = c.rest.take n ++ (c.pass n).rest := (List.take_append_drop n c.rest).symm
  have htake : c.rest.take n = cs := List.append_cancel_right (hcut.symm.trans hcs)
  refine ⟨cs, hcs, ?_, hls⟩
  rw [← htake]
  rfl

theorem IsBehind.spans (h : next.IsBehind c) (hls : c.Passes ls next) : c.Spans ls next := by
  obtain ⟨n, -, rfl⟩ := h
  exact hls.spans

theorem spans_skipBlank (c : Cursor) : c.Spans [] c.skipBlank :=
  c.passes_skipBlank.spans

theorem Spans.skipBlank (h : c.skipBlank.Spans ls next) : c.Spans ls next :=
  c.spans_skipBlank.trans h

theorem spans_passChar {x : Char} (h : c.passChar? x = some next) : c.Spans [.mark x] next := by
  have hpasses := passes_passChar h
  obtain ⟨-, rfl⟩ := passChar?_eq_some_iff.1 h
  exact hpasses.spans

end Cursor

namespace Source

variable {c next : Cursor}

/-! ### What is read is spelled -/

theorem readQuoted_passes {q : Cursor.QuotedText} (hquote : c.peek = some '"')
    (h : c.readQuoted = (.ok q, next)) : c.Passes [.text q.text] next := by
  rw [Cursor.readQuoted] at h
  split at h
  · rename_i quoted hquoted
    obtain ⟨hq, rfl⟩ := Prod.mk.inj h
    obtain rfl := Except.ok.inj hq
    obtain ⟨hpos, hle, hstable⟩ := Text.readQuoted_stable hquoted
    have hcut : c.rest = c.rest.take quoted.width ++ (c.pass quoted.width).rest :=
      (List.take_append_drop ..).symm
    refine Cursor.passes_single hcut ⟨?_, quoted, ?_, ?_, rfl⟩
    · rw [List.head?_take, if_neg (by omega)]
      exact hquote
    · have := hstable []
      rwa [List.append_nil] at this
    · rw [List.length_take]
      omega
  · simp at h

/-- Whether a reader reads what is spelled as values that nest at most `levels` deep. -/
def ValueReader.IsSound (read : ValueReader) (levels : Nat) : Prop :=
  ∀ {c s next}, read c = .ok (s, next) →
    s.outline.Fits levels ∧ c.Passes s.outline.lexemes next

theorem prefix_append {as bs cs : List Char} (h : as <+: cs) (h' : bs <+: cs.drop as.length) :
    as ++ bs <+: cs := by
  obtain ⟨rest, rfl⟩ := h
  rw [List.drop_left] at h'
  exact (List.prefix_append_right_inj as).2 h'

theorem leadingFraction_isPrefix (cs : List Char) : Number.leadingFraction cs <+: cs := by
  unfold Number.leadingFraction
  split
  · rename_i rest
    have hdigits := List.takeWhile_prefix Char.isDigit (l := rest)
    split
    · exact List.nil_prefix
    · rename_i digits hne heq
      exact (List.prefix_cons_inj '.').2 hdigits
  · exact List.nil_prefix

theorem leadingSign_isPrefix (cs : List Char) : Number.leadingSign cs <+: cs := by
  rcases cs with _ | ⟨c, cs⟩
  · exact List.nil_prefix
  · by_cases hc : (c == '+' || c == '-') = true <;> simp [Number.leadingSign, hc]

theorem leadingExponent_isPrefix (cs : List Char) : Number.leadingExponent cs <+: cs := by
  unfold Number.leadingExponent
  split
  · exact List.nil_prefix
  · rename_i letter rest
    split
    · simp only
      split
      · exact List.nil_prefix
      · refine (List.prefix_cons_inj letter).2 (prefix_append (leadingSign_isPrefix rest) ?_)
        exact List.takeWhile_prefix _
    · exact List.nil_prefix

/-- The number at the start of a text is a beginning of it. -/
theorem leading_isPrefix (cs : List Char) : Number.leading cs <+: cs := by
  have hdecimal : ∀ cs, Number.leadingDecimal cs <+: cs := fun cs => by
    rw [Number.leadingDecimal]
    simp only [List.append_assoc]
    refine prefix_append (List.takeWhile_prefix _) (prefix_append (leadingFraction_isPrefix _) ?_)
    rw [List.drop_drop]
    exact leadingExponent_isPrefix _
  have hmagnitude : ∀ cs, Number.leadingMagnitude cs <+: cs := fun cs => by
    unfold Number.leadingMagnitude
    split
    · rename_i rest
      exact (List.prefix_append_right_inj ['0', 'x']).2 (List.takeWhile_prefix _)
    · rename_i rest
      exact (List.prefix_append_right_inj ['0', 'X']).2 (List.takeWhile_prefix _)
    · exact hdecimal cs
  unfold Number.leading
  split
  · exact (List.prefix_cons_inj '-').2 (hmagnitude _)
  · exact hmagnitude cs

theorem readNumber_rest {spelling : String} (h : c.readNumber = (.ok spelling, next)) :
    c.rest = spelling.toList ++ next.rest := by
  rw [Cursor.readNumber] at h
  split at h
  · simp at h
  · obtain ⟨hspelling, rfl⟩ := Prod.mk.inj h
    obtain rfl := Except.ok.inj hspelling
    rw [String.toList_ofList]
    exact (List.prefix_iff_eq_append.1 (leading_isPrefix c.rest)).symm

theorem readName_rest {name : String} (h : c.readName = (.ok name, next)) :
    c.rest = name.toList ++ next.rest := by
  rw [Cursor.readName] at h
  split at h
  · simp at h
  · obtain ⟨hname, rfl⟩ := Prod.mk.inj h
    obtain rfl := Except.ok.inj hname
    rw [String.toList_ofList]
    exact (List.prefix_iff_eq_append.1 (List.takeWhile_prefix Text.isNameChar)).symm

theorem readScalar_sound {first : Char} {levels : Nat} {s : Source} (hfirst : c.peek = some first)
    (h : readScalar first c = .ok (s, next)) :
    s.outline.Fits levels ∧ c.Passes s.outline.lexemes next := by
  rw [readScalar] at h
  split at h
  · rename_i hquote
    rw [readText] at h
    obtain ⟨⟨quoted, last⟩, hquoted, h⟩ := Except.bind_eq_ok_iff.1 h
    obtain ⟨rfl, rfl⟩ := Prod.mk.inj (Except.ok.inj h)
    exact ⟨.scalar _ _, readQuoted_passes (hquote ▸ hfirst) (Reading.value_eq_ok_iff.1 hquoted)⟩
  · split at h
    · rw [readNumber] at h
      obtain ⟨⟨spelling, last⟩, hspelling, h⟩ := Except.bind_eq_ok_iff.1 h
      simp only at h
      split at h
      · rename_i hnumber
        obtain ⟨rfl, rfl⟩ := Prod.mk.inj (Except.ok.inj h)
        have hrest := readNumber_rest (Reading.value_eq_ok_iff.1 hspelling)
        exact ⟨.scalar _ _, Cursor.passes_single hrest ⟨rfl, .inr (isNumber_iff.1 hnumber)⟩⟩
      · simp at h
    · split at h
      · rw [readWord] at h
        obtain ⟨⟨word, last⟩, hword, h⟩ := Except.bind_eq_ok_iff.1 h
        simp only at h
        split at h
        · rename_i hvalue
          obtain ⟨rfl, rfl⟩ := Prod.mk.inj (Except.ok.inj h)
          have hrest := readName_rest (Reading.value_eq_ok_iff.1 hword)
          exact ⟨.scalar _ _,
            Cursor.passes_single hrest ⟨rfl, .inl (List.contains_iff_mem.1 hvalue)⟩⟩
        · simp at h
      · simp at h

theorem readMemberName_spans {earlier : List String} {name : String}
    (h : readMemberName earlier c = .ok (name, next)) : c.Spans [.text name, .mark ':'] next := by
  rw [readMemberName] at h
  split at h
  · cases h
  · rename_i hquote
    obtain ⟨⟨quoted, after⟩, hquoted, h⟩ := Except.bind_eq_ok_iff.1 h
    simp only at h
    split at h
    · cases h
    · obtain ⟨⟨_, last⟩, hcolon, h⟩ := Except.bind_eq_ok_iff.1 h
      obtain ⟨rfl, rfl⟩ := Prod.mk.inj (Except.ok.inj h)
      have hread := Reading.value_eq_ok_iff.1 hquoted
      have hname := (Cursor.readQuoted_isBehind hread).spans
        (readQuoted_passes (by simpa using hquote) hread)
      refine (hname.trans (Cursor.Spans.skipBlank ?_)).skipBlank
      have hexpect := Reading.value_eq_ok_iff.1 hcolon
      rw [Cursor.expect] at hexpect
      split at hexpect
      · rename_i found hfound
        obtain ⟨-, rfl⟩ := Prod.mk.inj hexpect
        exact Cursor.spans_passChar hfound
      · cases (Prod.mk.inj hexpect).1

theorem readMemberName_sound {earlier : List String} {name : String}
    (h : readMemberName earlier c = .ok (name, next)) : c.Passes [.text name, .mark ':'] next :=
  (readMemberName_spans h).passes

theorem readSeparator_spans {close : Char} {start : Position} {result : Separation}
    (h : readSeparator close start c = .ok result) :
    (∃ next, result = .more next ∧ c.Spans [.mark ','] next) ∨
      ∃ next, result = .done next ∧ c.Spans [.mark close] next := by
  rw [readSeparator] at h
  split at h
  · rename_i next hcomma
    obtain rfl := Except.ok.inj h
    exact .inl ⟨next, rfl, (Cursor.spans_passChar hcomma).skipBlank⟩
  · split at h
    · rename_i next hclose
      obtain rfl := Except.ok.inj h
      exact .inr ⟨next, rfl, (Cursor.spans_passChar hclose).skipBlank⟩
    · split at h <;> cases h

theorem readSeparator_sound {close : Char} {start : Position} {result : Separation}
    (h : readSeparator close start c = .ok result) :
    (∃ next, result = .more next ∧ c.Passes [.mark ','] next) ∨
      ∃ next, result = .done next ∧ c.Passes [.mark close] next := by
  rcases readSeparator_spans h with ⟨next, rfl, hcomma⟩ | ⟨next, rfl, hclose⟩
  · exact .inl ⟨next, rfl, hcomma.passes⟩
  · exact .inr ⟨next, rfl, hclose.passes⟩

theorem readMembers_sound {read : ValueReader} {levels : Nat} (hread : read.IsSound levels)
    {start : Position} {fuel : Nat} {earlier : List String} {members : List (String × Source)}
    (hfuel : c.rest.length < fuel)
    (h : readMembers read start fuel earlier c = .ok (members, next)) :
    ∃ name s more, members = (name, s) :: more ∧
      (∀ m ∈ members, m.2.outline.Fits levels) ∧
      c.Passes (.text name :: .mark ':' ::
        (s.outline.lexemes ++ Outline.memberLexemes (memberOutlines more))) next := by
  induction fuel generalizing earlier c next members with
  | zero => exact absurd hfuel (Nat.not_lt_zero _)
  | succ fuel ih =>
    rw [readMembers] at h
    obtain ⟨⟨name, afterName⟩, hname, h⟩ := Except.bind_eq_ok_iff.1 h
    obtain ⟨⟨s, afterValue⟩, hvalue, h⟩ := Except.bind_eq_ok_iff.1 h
    obtain ⟨separation, hseparation, h⟩ := Except.bind_eq_ok_iff.1 h
    obtain ⟨hfits, hpasses⟩ := hread hvalue
    have hmember := (readMemberName_sound hname).trans hpasses
    rcases readSeparator_sound hseparation with ⟨behind, rfl, hcomma⟩ | ⟨behind, rfl, hclose⟩
    · obtain ⟨⟨rest, last⟩, hrest, h⟩ := Except.bind_eq_ok_iff.1 h
      obtain ⟨rfl, rfl⟩ := Prod.mk.inj (Except.ok.inj h)
      -- behind the comma there is less text, for which the fuel is enough
      have hbehind := (hmember.trans hcomma).length_le
      simp only [List.length_append, List.length_cons] at hbehind
      obtain ⟨name', s', more, rfl, hall, hentries⟩ := ih (by omega) hrest
      refine ⟨name, s, _, rfl, List.forall_mem_cons.2 ⟨hfits, hall⟩, ?_⟩
      exact hmember.trans (hcomma.cons hentries)
    · obtain ⟨rfl, rfl⟩ := Prod.mk.inj (Except.ok.inj h)
      refine ⟨name, s, [], rfl, List.forall_mem_cons.2 ⟨hfits, List.forall_mem_nil _⟩, ?_⟩
      exact hmember.trans hclose

theorem readItems_sound {read : ValueReader} {levels : Nat} (hread : read.IsSound levels)
    {start : Position} {fuel : Nat} {items : List Source} (hfuel : c.rest.length < fuel)
    (h : readItems read start fuel c = .ok (items, next)) :
    ∃ s more, items = s :: more ∧ (∀ v ∈ items, v.outline.Fits levels) ∧
      c.Passes (s.outline.lexemes ++ Outline.itemLexemes (itemOutlines more)) next := by
  induction fuel generalizing c next items with
  | zero => exact absurd hfuel (Nat.not_lt_zero _)
  | succ fuel ih =>
    rw [readItems] at h
    obtain ⟨⟨s, afterValue⟩, hvalue, h⟩ := Except.bind_eq_ok_iff.1 h
    obtain ⟨separation, hseparation, h⟩ := Except.bind_eq_ok_iff.1 h
    obtain ⟨hfits, hpasses⟩ := hread hvalue
    rcases readSeparator_sound hseparation with ⟨behind, rfl, hcomma⟩ | ⟨behind, rfl, hclose⟩
    · obtain ⟨⟨rest, last⟩, hrest, h⟩ := Except.bind_eq_ok_iff.1 h
      obtain ⟨rfl, rfl⟩ := Prod.mk.inj (Except.ok.inj h)
      have hbehind := (hpasses.trans hcomma).length_le
      simp only [List.length_append, List.length_cons] at hbehind
      obtain ⟨s', more, rfl, hall, hentries⟩ := ih (by omega) hrest
      exact ⟨s, _, rfl, List.forall_mem_cons.2 ⟨hfits, hall⟩, hpasses.trans (hcomma.cons hentries)⟩
    · obtain ⟨rfl, rfl⟩ := Prod.mk.inj (Except.ok.inj h)
      exact ⟨s, [], rfl, List.forall_mem_cons.2 ⟨hfits, List.forall_mem_nil _⟩,
        hpasses.trans hclose⟩

/-- The cursor behind the bracket at which it stands. -/
theorem passes_pass {x : Char} (h : c.peek = some x) : c.Passes [.mark x] (c.pass 1) :=
  Cursor.passes_passChar (Cursor.passChar?_eq_some_iff.2 ⟨h, rfl⟩)

theorem readObject_sound {read : ValueReader} {levels : Nat} (hread : read.IsSound levels)
    (hnames : read.NamesDiffer) {s : Source} (hopen : c.peek = some '{')
    (h : readObject read c = .ok (s, next)) :
    s.outline.Fits (levels + 1) ∧ c.Passes s.outline.lexemes next := by
  have hbrace := passes_pass hopen
  rw [readObject] at h
  simp only at h
  split at h
  · rename_i hclose
    obtain ⟨rfl, rfl⟩ := Prod.mk.inj (Except.ok.inj h)
    refine ⟨.object List.nodup_nil (List.forall_mem_nil _), ?_⟩
    exact hbrace.cons (Cursor.passes_passChar hclose).skipBlank
  · obtain ⟨⟨members, last⟩, hmembers, h⟩ := Except.bind_eq_ok_iff.1 h
    obtain ⟨rfl, rfl⟩ := Prod.mk.inj (Except.ok.inj h)
    obtain ⟨hdiffer, -⟩ := readMembers_namesDiffer hnames hmembers
    obtain ⟨name, s, more, rfl, hall, hentries⟩ :=
      readMembers_sound hread (Nat.lt_succ_self _) hmembers
    refine ⟨?_, hbrace.cons hentries.skipBlank⟩
    rw [outline, memberOutlines_eq]
    refine .object (by simpa [Function.comp_def] using hdiffer) fun m hm => ?_
    obtain ⟨m', hm', rfl⟩ := List.mem_map.1 hm
    exact hall m' hm'

theorem readArray_sound {read : ValueReader} {levels : Nat} (hread : read.IsSound levels)
    {s : Source} (hopen : c.peek = some '[') (h : readArray read c = .ok (s, next)) :
    s.outline.Fits (levels + 1) ∧ c.Passes s.outline.lexemes next := by
  have hbracket := passes_pass hopen
  rw [readArray] at h
  simp only at h
  split at h
  · rename_i hclose
    obtain ⟨rfl, rfl⟩ := Prod.mk.inj (Except.ok.inj h)
    refine ⟨.array (List.forall_mem_nil _), ?_⟩
    exact hbracket.cons (Cursor.passes_passChar hclose).skipBlank
  · obtain ⟨⟨items, last⟩, hitems, h⟩ := Except.bind_eq_ok_iff.1 h
    obtain ⟨rfl, rfl⟩ := Prod.mk.inj (Except.ok.inj h)
    obtain ⟨s, more, rfl, hall, hentries⟩ := readItems_sound hread (Nat.lt_succ_self _) hitems
    refine ⟨?_, hbracket.cons hentries.skipBlank⟩
    rw [outline, itemOutlines_eq]
    refine .array fun o ho => ?_
    obtain ⟨v, hv, rfl⟩ := List.mem_map.1 ho
    exact hall v hv

/-- What is read is spelled so, and containers nest only as deep as they may. -/
theorem readValue_sound (levels : Nat) : ValueReader.IsSound (readValue levels) levels := by
  induction levels with
  | zero =>
    intro c s next h
    rw [readValue.eq_def] at h
    simp only at h
    split at h
    · simp at h
    · rename_i first hfirst
      split at h
      · simp at h
      · obtain ⟨hfits, hpasses⟩ := readScalar_sound hfirst h
        exact ⟨hfits, hpasses.skipBlank⟩
  | succ levels ih =>
    intro c s next h
    rw [readValue.eq_def] at h
    simp only at h
    split at h
    · simp at h
    · rename_i first hfirst
      split at h
      · rename_i hbracket
        split at h
        · rename_i hbrace
          obtain ⟨hfits, hpasses⟩ :=
            readObject_sound ih (readValue_namesDiffer levels) (hbrace ▸ hfirst) h
          exact ⟨hfits, hpasses.skipBlank⟩
        · rename_i hbrace
          have hopen : first = '[' := by simpa [hbrace] using hbracket
          obtain ⟨hfits, hpasses⟩ := readArray_sound ih (hopen ▸ hfirst) h
          exact ⟨hfits, hpasses.skipBlank⟩
      · obtain ⟨hfits, hpasses⟩ := readScalar_sound hfirst h
        exact ⟨hfits, hpasses.skipBlank⟩

end Source

end DocQuery
