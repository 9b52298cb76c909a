/-
Every JSON text is read.

* `Cursor.CanRead` — a text that spells tokens comes next, white space aside;
* `Source.readValue_complete` — a value that is spelled is read, and the reader ends behind it;
* `readJson_recognizes` — a text is read as the structure that it is written in, and only then.

Design notes: a reader of a value leaves the white space behind it to the next one, so what is left
is known only up to white space. Strings end with a quote and containers with a bracket. Numbers and
words end where the text stops, which is why that is asked of whatever comes behind a value.
-/
import Mathlib.Data.List.DropRight
import DocQuery.Proofs.Source.Grammar

namespace DocQuery

open Text (isBlank dropBlank)

/-! ### What stands first -/

/-- Whether a token does not begin with white space. Only a mark might. -/
def Lexeme.IsVisible : Lexeme → Prop
  | .mark c => isBlank c = false
  | .text _ | .bare _ => True

/-- Numbers begin with a minus or a digit, and words with one of three letters. -/
theorem Lexeme.IsSpelled.bare_head {spelling : String} {cs : List Char}
    (h : (Lexeme.bare spelling).IsSpelled cs) :
    ∃ c rest, cs = c :: rest ∧
      (spelling ∈ Source.jsonWords ∧ (c = 't' ∨ c = 'f' ∨ c = 'n') ∨
        Source.IsNumber cs ∧ (c = '-' ∨ c.isDigit)) := by
  obtain ⟨rfl, hword | hnumber⟩ := h
  · have hwords := hword
    simp only [Source.jsonWords, List.mem_cons, List.not_mem_nil, or_false] at hwords
    rcases hwords with rfl | rfl | rfl
    · exact ⟨'t', "rue".toList, rfl, .inl ⟨hword, .inl rfl⟩⟩
    · exact ⟨'f', "alse".toList, rfl, .inl ⟨hword, .inr (.inl rfl)⟩⟩
    · exact ⟨'n', "ull".toList, rfl, .inl ⟨hword, .inr (.inr rfl)⟩⟩
  · obtain ⟨n, hn, hfits, heq⟩ := hnumber
    obtain ⟨c, rest, hhead, hc⟩ := hn.spelling_head
    exact ⟨c, rest, heq.trans hhead, .inr ⟨⟨n, hn, hfits, heq⟩, hc⟩⟩

theorem isBlank_eq_false_of_isDigit {c : Char} (h : c.isDigit) : isBlank c = false := by
  obtain ⟨hzero, hnine⟩ : 48 ≤ c.toNat ∧ c.toNat ≤ 57 := Char.isDigit_iff_toNat.1 h
  simp only [isBlank, Bool.or_eq_false_iff, Bool.and_eq_false_iff, decide_eq_false_iff_not]
  omega

theorem Lexeme.IsSpelled.head {l : Lexeme} {cs : List Char} (h : l.IsSpelled cs)
    (hl : l.IsVisible) : ∃ c rest, cs = c :: rest ∧ isBlank c = false := by
  cases l with
  | mark c => exact ⟨c, [], h, hl⟩
  | text content =>
    obtain ⟨rest, hrest⟩ := List.head?_eq_some_iff.1 h.1
    exact ⟨'"', rest, hrest, by decide⟩
  | bare spelling =>
    obtain ⟨c, rest, hcons, ⟨-, rfl | rfl | rfl⟩ | ⟨-, rfl | hdigit⟩⟩ := h.bare_head
    iterate 4 exact ⟨_, rest, hcons, by decide⟩
    exact ⟨c, rest, hcons, isBlank_eq_false_of_isDigit hdigit⟩

/-- No value begins with the bracket that closes an array. -/
theorem Outline.exists_first (o : Outline) : ∃ l ls, o.lexemes = l :: ls ∧ l.IsVisible ∧
    ∀ tok, l.IsSpelled tok → tok.head? ≠ some ']' := by
  cases o with
  | object members =>
    have hvisible : isBlank '{' = false := by decide
    refine ⟨.mark '{', (Outline.object members).lexemes.tail, ?_, hvisible, ?_⟩
    · rcases members with _ | ⟨⟨name, o⟩, members⟩ <;> rfl
    · rintro tok rfl
      decide
  | array items =>
    have hvisible : isBlank '[' = false := by decide
    refine ⟨.mark '[', (Outline.array items).lexemes.tail, ?_, hvisible, ?_⟩
    · rcases items with _ | ⟨o, items⟩ <;> rfl
    · rintro tok rfl
      decide
  | scalar s =>
    rw [lexemes]
    by_cases hquoted : s.isQuoted
    · refine ⟨.text s.text, [], if_pos hquoted, trivial, fun tok h => ?_⟩
      rw [h.1]
      decide
    · refine ⟨.bare s.text, [], if_neg hquoted, trivial, fun tok h => ?_⟩
      obtain ⟨c, rest, rfl, ⟨-, rfl | rfl | rfl⟩ | ⟨-, rfl | hdigit⟩⟩ := h.bare_head
      iterate 4 simp
      rintro hbracket
      obtain rfl : c = ']' := Option.some.inj hbracket
      exact absurd hdigit (by decide)

theorem dropBlank_append {blanks : List Char} (h : ∀ c ∈ blanks, isBlank c) (rest : List Char) :
    dropBlank (blanks ++ rest) = dropBlank rest :=
  List.dropWhile_append_of_pos h

theorem Spells.dropBlank_eq {cs : List Char} (h : Spells [] cs) (post : List Char) :
    dropBlank (cs ++ post) = dropBlank post := by
  cases h with
  | nil hblanks => exact dropBlank_append hblanks post

/-- A text stops where a comma or a closing bracket comes next. -/
theorem Spells.stops {x : Char} {ls : List Lexeme} {cs : List Char} (h : Spells (.mark x :: ls) cs)
    (hx : x = ',' ∨ x = ']' ∨ x = '}') (post : List Char) : Source.Stops (cs ++ post) := by
  cases h with
  | @cons blanks tok rest _ _ hblanks hl _ =>
    obtain rfl : tok = [x] := hl
    intro c hc
    rcases blanks with _ | ⟨b, blanks⟩
    · obtain rfl : x = c := by simpa using hc
      exact .inr hx
    · obtain rfl : b = c := by simpa using hc
      exact .inl (hblanks b List.mem_cons_self)

theorem Source.Stops.blank_append {blanks post : List Char} (h : ∀ c ∈ blanks, isBlank c)
    (hpost : Source.Stops post) : Source.Stops (blanks ++ post) := by
  rcases blanks with _ | ⟨b, blanks⟩
  · exact hpost
  · intro c hc
    obtain rfl : b = c := by simpa using hc
    exact .inl (h b List.mem_cons_self)

namespace Cursor

variable {c : Cursor} {l : Lexeme} {ls : List Lexeme} {post : List Char}

/-- Whether a text that spells the tokens `ls` comes next, and then `post`. White space before it
does not count. -/
def CanRead (c : Cursor) (ls : List Lexeme) (post : List Char) : Prop :=
  ∃ cs, Spells ls cs ∧ dropBlank c.rest = dropBlank (cs ++ post)

/-- The first token stands where the white space ends. -/
theorem CanRead.first (h : c.CanRead (l :: ls) post) (hl : l.IsVisible) :
    ∃ tok rest, c.skipBlank.rest = tok ++ (rest ++ post) ∧ l.IsSpelled tok ∧ Spells ls rest := by
  obtain ⟨cs, hcs, hrest⟩ := h
  cases hcs with
  | @cons blanks tok rest _ _ hblanks hspelled hspells =>
    obtain ⟨first, more, rfl, hfirst⟩ := hspelled.head hl
    refine ⟨first :: more, rest, ?_, hspelled, hspells⟩
    rw [skipBlank_rest, hrest, List.append_assoc, List.append_assoc, dropBlank_append hblanks]
    exact List.dropWhile_cons_of_neg (by simp [hfirst])

theorem canRead_of_rest {rest : List Char} (h : c.rest = rest ++ post) (hls : Spells ls rest) :
    c.CanRead ls post :=
  ⟨rest, hls, by rw [h]⟩

theorem CanRead.skipBlank (h : c.CanRead ls post) : c.skipBlank.CanRead ls post := by
  obtain ⟨cs, hcs, hrest⟩ := h
  refine ⟨cs, hcs, ?_⟩
  rw [skipBlank_rest, ← hrest]
  exact List.dropWhile_idempotent (p := isBlank) c.rest

/-- What two lists of tokens need is what the first needs, and then the second. -/
theorem CanRead.split {ms : List Lexeme} (h : c.CanRead (ls ++ ms) post) :
    ∃ bs, Spells ms bs ∧ c.CanRead ls (bs ++ post) := by
  obtain ⟨cs, hcs, hrest⟩ := h
  obtain ⟨as, bs, rfl, hls, hms⟩ := hcs.exists_append
  exact ⟨bs, hms, as, hls, by rw [hrest, List.append_assoc]⟩

/-- A mark that comes next is passed. -/
theorem CanRead.passChar? {x : Char} (h : c.CanRead (.mark x :: ls) post)
    (hx : isBlank x = false) :
    ∃ next rest, c.skipBlank.passChar? x = some next ∧ next.rest = rest ++ post ∧
      Spells ls rest := by
  obtain ⟨tok, rest, hrest, rfl, hls⟩ := h.first hx
  refine ⟨c.skipBlank.pass 1, rest, passChar?_eq_some_iff.2 ⟨?_, rfl⟩, ?_, hls⟩
  · rw [hrest]
    rfl
  · show c.skipBlank.rest.drop 1 = _
    rw [hrest]
    rfl

/-- Another character than the one that comes next is not passed. -/
theorem CanRead.passChar?_eq_none {x y : Char} (h : c.CanRead (.mark x :: ls) post)
    (hx : isBlank x = false) (hne : x ≠ y) : c.skipBlank.passChar? y = none := by
  obtain ⟨tok, rest, hrest, rfl, -⟩ := h.first hx
  by_contra hsome
  obtain ⟨next, hnext⟩ := Option.ne_none_iff_exists'.1 hsome
  have hhead := (passChar?_eq_some_iff.1 hnext).1
  rw [hrest] at hhead
  exact hne (Option.some.inj hhead)

end Cursor

namespace Source

variable {c : Cursor} {ls : List Lexeme} {post : List Char}

/-! ### Tokens -/

theorem readQuoted_complete {content : String} {tok : List Char} (hrest : c.rest = tok ++ post)
    (h : (Lexeme.text content).IsSpelled tok) :
    c.peek = some '"' ∧ ∃ q next, c.readQuoted = (.ok q, next) ∧ q.text = content ∧
      next.rest = post := by
  obtain ⟨hquote, quoted, hquoted, hwidth, hcontent⟩ := h
  obtain ⟨tail, rfl⟩ := List.head?_eq_some_iff.1 hquote
  refine ⟨by rw [Cursor.peek, hrest]; rfl, ?_⟩
  have hread : Text.readQuoted c.rest = .ok quoted := by
    have hstable := (Text.readQuoted_stable hquoted).2.2 post
    rwa [hwidth, List.take_length, ← hrest] at hstable
  rw [Cursor.readQuoted, hread]
  refine ⟨_, _, rfl, hcontent, ?_⟩
  show c.rest.drop quoted.width = post
  rw [hrest, hwidth, List.drop_left]

theorem readNumber_complete {n : NumberParts} (h : n.IsWellFormed)
    (hrest : c.rest = n.spelling ++ post) (hpost : Stops post) :
    ∃ next, c.readNumber = (.ok (String.ofList n.spelling), next) ∧ next.rest = post := by
  have hleading : Number.leading c.rest = n.spelling := by
    rw [hrest]
    exact leading_spelling h hpost
  have hnumber : ¬ (n.spelling = [] || n.spelling = ['-']) = true := by
    obtain ⟨first, rest, hhead, -⟩ := h.spelling_head
    simp only [Bool.or_eq_true, decide_eq_true_eq, not_or]
    exact ⟨by simp [hhead], h.spelling_ne_minus⟩
  rw [Cursor.readNumber, hleading, if_neg hnumber]
  refine ⟨_, rfl, ?_⟩
  show c.rest.drop n.spelling.length = post
  rw [hrest, List.drop_left]

theorem readName_complete {word : String} (hword : ∀ x ∈ word.toList, Text.isNameChar x)
    (hsome : word.toList ≠ []) (hrest : c.rest = word.toList ++ post) (hpost : Stops post) :
    ∃ next, c.readName = (.ok word, next) ∧ next.rest = post := by
  have hrun : c.rest.takeWhile Text.isNameChar = word.toList := by
    rw [hrest]
    refine takeWhile_run hword fun x hx => ?_
    rcases post with _ | ⟨y, post⟩
    · simp at hx
    · obtain rfl : y = x := by simpa using hx
      exact hpost.head.1
  refine ⟨c.pass word.toList.length, ?_, ?_⟩
  · rw [Cursor.readName, hrun]
    split
    · rename_i hnil
      exact absurd hnil hsome
    · rw [String.ofList_toList]
  · show c.rest.drop word.toList.length = post
    rw [hrest, List.drop_left]

/-- Whether a reader reads every text of the structure `o` that stops behind it. -/
def ValueReader.IsComplete (read : ValueReader) (o : Outline) : Prop :=
  ∀ {c : Cursor} {post}, c.CanRead o.lexemes post → Stops post →
    ∃ s next, read c = .ok (s, next) ∧ s.outline = o ∧ dropBlank next.rest = dropBlank post

theorem readSeparator_more (close : Char) (start : Position)
    (h : c.CanRead (.mark ',' :: ls) post) :
    ∃ next rest, readSeparator close start c = .ok (.more next) ∧ next.rest = rest ++ post ∧
      Spells ls rest := by
  obtain ⟨next, rest, hnext, hrest, hls⟩ := h.passChar? (by decide)
  refine ⟨next, rest, ?_, hrest, hls⟩
  rw [readSeparator, hnext]

theorem readSeparator_done {close : Char} (start : Position) (hblank : isBlank close = false)
    (hclose : close ≠ ',') (h : c.CanRead [.mark close] post) :
    ∃ next, readSeparator close start c = .ok (.done next) ∧
      dropBlank next.rest = dropBlank post := by
  obtain ⟨next, rest, hnext, hrest, hls⟩ := h.passChar? hblank
  refine ⟨next, ?_, by rw [hrest, hls.dropBlank_eq]⟩
  rw [readSeparator, h.passChar?_eq_none hblank hclose, hnext]

theorem readMemberName_complete {name : String} {earlier : List String}
    (hfresh : name ∉ earlier) (h : c.CanRead (.text name :: .mark ':' :: ls) post) :
    ∃ next rest, readMemberName earlier c = .ok (name, next) ∧ next.rest = rest ++ post ∧
      Spells ls rest := by
  obtain ⟨tok, behind, hbehind, htext, hcolon⟩ := h.first trivial
  obtain ⟨hquote, q, afterName, hread, rfl, hafterName⟩ := readQuoted_complete hbehind htext
  obtain ⟨next, rest, hnext, hrest, hls⟩ :=
    (Cursor.canRead_of_rest hafterName hcolon).passChar? (by decide)
  refine ⟨next, rest, ?_, hrest, hls⟩
  have hexpect : afterName.skipBlank.expect ':' = (.ok (), next) := by
    rw [Cursor.expect, hnext]
  rw [readMemberName, if_neg (by simp [hquote]), hread]
  show (if earlier.contains q.text then _ else _) = _
  rw [if_neg (by simpa using hfresh), hexpect]
  rfl

/-! ### Containers -/

theorem length_memberLexemes (members : List (String × Outline)) :
    members.length < (Outline.memberLexemes members).length := by
  induction members with
  | nil => exact Nat.one_pos
  | cons m members ih =>
    rw [Outline.memberLexemes]
    simp only [List.length_cons, List.length_append]
    omega

theorem length_itemLexemes (items : List Outline) :
    items.length < (Outline.itemLexemes items).length := by
  induction items with
  | nil => exact Nat.one_pos
  | cons o items ih =>
    rw [Outline.itemLexemes]
    simp only [List.length_cons, List.length_append]
    omega

/-- Behind a value comes a comma or the closing bracket. -/
theorem memberLexemes_stops {members : List (String × Outline)} {bs : List Char}
    (h : Spells (Outline.memberLexemes members) bs) (post : List Char) : Stops (bs ++ post) := by
  cases members with
  | nil => exact h.stops (.inr (.inr rfl)) post
  | cons m members => exact h.stops (.inl rfl) post

theorem itemLexemes_stops {items : List Outline} {bs : List Char}
    (h : Spells (Outline.itemLexemes items) bs) (post : List Char) : Stops (bs ++ post) := by
  cases items with
  | nil => exact h.stops (.inr (.inl rfl)) post
  | cons o items => exact h.stops (.inl rfl) post

theorem readMembers_complete {read : ValueReader} (start : Position) {fuel : Nat}
    {earlier : List String} {name : String} {o : Outline} {members : List (String × Outline)}
    (hread : ∀ m ∈ (name, o) :: members, read.IsComplete m.2)
    (hnodup : (((name, o) :: members).map (·.1)).Nodup)
    (hfresh : ∀ m ∈ (name, o) :: members, m.1 ∉ earlier) (hfuel : members.length < fuel)
    (h : c.CanRead
      (.text name :: .mark ':' :: (o.lexemes ++ Outline.memberLexemes members)) post) :
    ∃ ms next, readMembers read start fuel earlier c = .ok (ms, next) ∧
      memberOutlines ms = (name, o) :: members ∧ dropBlank next.rest = dropBlank post := by
  induction fuel generalizing c name o members earlier with
  | zero => exact absurd hfuel (Nat.not_lt_zero _)
  | succ fuel ih =>
    obtain ⟨afterName, rest, hname, hrest, hls⟩ :=
      readMemberName_complete (hfresh _ List.mem_cons_self) h
    obtain ⟨bs, hbs, hvalue⟩ := (Cursor.canRead_of_rest hrest hls).split
    obtain ⟨s, afterValue, hs, rfl, hbehind⟩ :=
      hread _ List.mem_cons_self hvalue (memberLexemes_stops hbs post)
    have hseparator : afterValue.CanRead (Outline.memberLexemes members) post :=
      ⟨bs, hbs, hbehind⟩
    rcases members with _ | ⟨⟨name', o'⟩, members⟩
    · obtain ⟨next, hdone, hnext⟩ :=
        readSeparator_done start (by decide) (by decide) hseparator
      refine ⟨[(name, s)], next, ?_, rfl, hnext⟩
      exact Except.bind_eq_ok_iff.2 ⟨_, hname, Except.bind_eq_ok_iff.2 ⟨_, hs,
        Except.bind_eq_ok_iff.2 ⟨_, hdone, rfl⟩⟩⟩
    · obtain ⟨afterComma, more, hmore, hafterComma, hmoreLexemes⟩ :=
        readSeparator_more '}' start hseparator
      rw [List.map_cons, List.nodup_cons] at hnodup
      -- the names to come differ from this one and from those before it
      have hfresh' : ∀ m ∈ (name', o') :: members, m.1 ∉ name :: earlier := by
        intro m hm hin
        rcases List.mem_cons.1 hin with heq | hin
        · exact hnodup.1 (List.mem_map.2 ⟨m, hm, heq⟩)
        · exact hfresh m (List.mem_cons_of_mem _ hm) hin
      obtain ⟨ms, next, hms, houtline, hnext⟩ := ih
        (fun m hm => hread m (List.mem_cons_of_mem _ hm)) hnodup.2 hfresh'
        (Nat.lt_of_succ_lt_succ hfuel) (Cursor.canRead_of_rest hafterComma hmoreLexemes)
      refine ⟨(name, s) :: ms, next, ?_, by rw [memberOutlines, houtline], hnext⟩
      exact Except.bind_eq_ok_iff.2 ⟨_, hname, Except.bind_eq_ok_iff.2 ⟨_, hs,
        Except.bind_eq_ok_iff.2 ⟨_, hmore, Except.bind_eq_ok_iff.2 ⟨_, hms, rfl⟩⟩⟩⟩

theorem readItems_complete {read : ValueReader} (start : Position) {fuel : Nat} {o : Outline}
    {items : List Outline} (hread : ∀ v ∈ o :: items, read.IsComplete v)
    (hfuel : items.length < fuel)
    (h : c.CanRead (o.lexemes ++ Outline.itemLexemes items) post) :
    ∃ vs next, readItems read start fuel c = .ok (vs, next) ∧ itemOutlines vs = o :: items ∧
      dropBlank next.rest = dropBlank post := by
  induction fuel generalizing c o items with
  | zero => exact absurd hfuel (Nat.not_lt_zero _)
  | succ fuel ih =>
    obtain ⟨bs, hbs, hvalue⟩ := h.split
    obtain ⟨s, afterValue, hs, rfl, hbehind⟩ :=
      hread _ List.mem_cons_self hvalue (itemLexemes_stops hbs post)
    have hseparator : afterValue.CanRead (Outline.itemLexemes items) post := ⟨bs, hbs, hbehind⟩
    rcases items with _ | ⟨o', items⟩
    · obtain ⟨next, hdone, hnext⟩ :=
        readSeparator_done start (by decide) (by decide) hseparator
      refine ⟨[s], next, ?_, rfl, hnext⟩
      exact Except.bind_eq_ok_iff.2 ⟨_, hs, Except.bind_eq_ok_iff.2 ⟨_, hdone, rfl⟩⟩
    · obtain ⟨afterComma, more, hmore, hafterComma, hmoreLexemes⟩ :=
        readSeparator_more ']' start hseparator
      obtain ⟨vs, next, hvs, houtline, hnext⟩ := ih
        (fun v hv => hread v (List.mem_cons_of_mem _ hv)) (Nat.lt_of_succ_lt_succ hfuel)
        (Cursor.canRead_of_rest hafterComma hmoreLexemes)
      refine ⟨s :: vs, next, ?_, by rw [itemOutlines, houtline], hnext⟩
      exact Except.bind_eq_ok_iff.2 ⟨_, hs, Except.bind_eq_ok_iff.2 ⟨_, hmore,
        Except.bind_eq_ok_iff.2 ⟨_, hvs, rfl⟩⟩⟩

/-- What stands behind the opening bracket of a container is read. -/
theorem readObject_complete {read : ValueReader} {members : List (String × Outline)}
    (hread : ∀ m ∈ members, read.IsComplete m.2) (hnodup : (members.map (·.1)).Nodup)
    (h : (c.pass 1).CanRead (Outline.object members).lexemes.tail post) :
    ∃ s next, readObject read c = .ok (s, next) ∧ s.outline = .object members ∧
      dropBlank next.rest = dropBlank post := by
  rcases members with _ | ⟨⟨name, o⟩, members⟩
  · have hbrace : (c.pass 1).CanRead [.mark '}'] post := h
    obtain ⟨next, rest, hclose, hrest, hls⟩ := hbrace.passChar? (by decide)
    refine ⟨.object [] c.position, next, ?_, rfl, by rw [hrest, hls.dropBlank_eq]⟩
    rw [readObject]
    simp only [hclose]
  · obtain ⟨tok, rest, hrest, htext, hls⟩ := Cursor.CanRead.first h trivial
    have hopen : (c.pass 1).skipBlank.passChar? '}' = none := by
      by_contra hsome
      obtain ⟨next, hnext⟩ := Option.ne_none_iff_exists'.1 hsome
      have hhead := (Cursor.passChar?_eq_some_iff.1 hnext).1
      have hquote := (readQuoted_complete hrest htext).1
      rw [Cursor.peek, hhead] at hquote
      exact absurd hquote (by decide)
    have hfuel : members.length < (c.pass 1).skipBlank.rest.length + 1 := by
      have hlength := hls.length_le
      have hmembers := length_memberLexemes members
      rw [List.length_cons, List.length_append] at hlength
      rw [hrest, List.length_append, List.length_append]
      omega
    obtain ⟨ms, next, hms, houtline, hnext⟩ := readMembers_complete c.position hread
      hnodup (fun m _ => List.not_mem_nil) hfuel (Cursor.CanRead.skipBlank h)
    refine ⟨.object ms c.position, next, ?_, by rw [outline, houtline], hnext⟩
    rw [readObject]
    simp only [hopen]
    rw [hms]
    rfl

theorem readArray_complete {read : ValueReader} {items : List Outline}
    (hread : ∀ v ∈ items, read.IsComplete v)
    (h : (c.pass 1).CanRead (Outline.array items).lexemes.tail post) :
    ∃ s next, readArray read c = .ok (s, next) ∧ s.outline = .array items ∧
      dropBlank next.rest = dropBlank post := by
  rcases items with _ | ⟨o, items⟩
  · have hbracket : (c.pass 1).CanRead [.mark ']'] post := h
    obtain ⟨next, rest, hclose, hrest, hls⟩ := hbracket.passChar? (by decide)
    refine ⟨.array [] c.position, next, ?_, rfl, by rw [hrest, hls.dropBlank_eq]⟩
    rw [readArray]
    simp only [hclose]
  · obtain ⟨l, ls, hfirst, hvisible, hbracket⟩ := o.exists_first
    have hlexemes : (Outline.array (o :: items)).lexemes.tail =
        l :: (ls ++ Outline.itemLexemes items) := by
      rw [Outline.lexemes, hfirst]
      rfl
    obtain ⟨tok, rest, hrest, hspelled, hls⟩ := (hlexemes ▸ h).first hvisible
    have hopen : (c.pass 1).skipBlank.passChar? ']' = none := by
      by_contra hsome
      obtain ⟨next, hnext⟩ := Option.ne_none_iff_exists'.1 hsome
      have hhead := (Cursor.passChar?_eq_some_iff.1 hnext).1
      obtain ⟨first, more, rfl, -⟩ := hspelled.head hvisible
      rw [hrest] at hhead
      exact hbracket _ hspelled hhead
    have hfuel : items.length < (c.pass 1).skipBlank.rest.length + 1 := by
      have hlength := hls.length_le
      have hitems := length_itemLexemes items
      rw [List.length_append] at hlength
      rw [hrest, List.length_append, List.length_append]
      omega
    obtain ⟨vs, next, hvs, houtline, hnext⟩ :=
      readItems_complete c.position hread hfuel (Cursor.CanRead.skipBlank h)
    refine ⟨.array vs c.position, next, ?_, by rw [outline, houtline], hnext⟩
    rw [readArray]
    simp only [hopen]
    rw [hvs]
    rfl

/-! ### Values -/

theorem readScalar_complete {s : Scalar} {tok : List Char}
    (h : (if s.isQuoted then Lexeme.text s.text else .bare s.text).IsSpelled tok)
    (hrest : c.rest = tok ++ post) (hpost : Stops post) :
    ∃ first v next, c.peek = some first ∧ (first = '{' || first = '[') = false ∧
      readScalar first c = .ok (v, next) ∧ v.outline = .scalar s ∧ next.rest = post := by
  obtain ⟨text, isQuoted⟩ := s
  rcases isQuoted with _ | _
  · -- how it begins tells a number from a word
    obtain ⟨first, rest, rfl, ⟨hword, hfirst⟩ | ⟨hnumber, hfirst⟩⟩ := h.bare_head
    · obtain ⟨heq, -⟩ := h
      have hpeek : c.peek = some first := by
        rw [Cursor.peek, hrest]
        rfl
      have hname : ∀ x ∈ text.toList, Text.isNameChar x := by
        refine List.all_eq_true.1 ?_
        simp only [jsonWords, List.mem_cons, List.not_mem_nil, or_false] at hword
        rcases hword with rfl | rfl | rfl <;> decide
      obtain ⟨next, hread, hnext⟩ :=
        readName_complete hname (by rw [← heq]; simp) (heq ▸ hrest) hpost
      refine ⟨first, .scalar (.bare text) none c.position, next, hpeek, ?_, ?_, rfl, hnext⟩
      · rcases hfirst with rfl | rfl | rfl <;> decide
      · have hbranch : readScalar first c = readWord c := by
          rcases hfirst with rfl | rfl | rfl <;> rfl
        rw [hbranch, readWord, hread]
        show (if jsonWords.contains text then _ else _) = _
        rw [if_pos (List.contains_iff_mem.2 hword)]
    · obtain ⟨heq, -⟩ := h
      have hpeek : c.peek = some first := by
        rw [Cursor.peek, hrest]
        rfl
      have hisSome := isNumber_iff.2 hnumber
      obtain ⟨n, hn, -, hspelling⟩ := hnumber
      have htext : String.ofList n.spelling = text := by
        rw [← hspelling, heq, String.ofList_toList]
      obtain ⟨next, hread, hnext⟩ := readNumber_complete hn (hspelling ▸ hrest) hpost
      have hdifferent : ∀ x, x.isDigit = false → x ≠ '-' → first ≠ x := by
        rintro x hx hminus rfl
        rcases hfirst with hfirst | hfirst
        · exact hminus hfirst
        · rw [hx] at hfirst
          exact absurd hfirst (by decide)
      refine ⟨first, .scalar (.bare text) none c.position, next, hpeek, ?_, ?_, rfl, hnext⟩
      · simp [hdifferent '{' (by decide) (by decide), hdifferent '[' (by decide) (by decide)]
      · rw [readScalar, if_neg (hdifferent '"' (by decide) (by decide)),
          if_pos (by simpa using hfirst),
          readNumber, hread, htext]
        show (if (Numeral.read? text.toList).isSome then _ else _) = _
        rw [if_pos (heq ▸ hisSome)]
  · obtain ⟨hpeek, q, next, hread, rfl, hnext⟩ := readQuoted_complete hrest h
    refine ⟨'"', .scalar (.quoted q.text) (escapedColumns? c.position q.columns) c.position, next,
      hpeek, by decide, ?_, rfl, hnext⟩
    rw [readScalar, if_pos rfl, readText, hread]
    rfl

/-- Every value that is spelled is read, if it nests no deeper than it may. -/
theorem readValue_complete {levels : Nat} {o : Outline} (h : o.Fits levels) :
    (readValue levels).IsComplete o := by
  induction h with
  | @object levels members hnodup _ ih =>
    intro c post hread _
    obtain ⟨ls, hlexemes⟩ : ∃ ls, (Outline.object members).lexemes = .mark '{' :: ls := by
      rcases members with _ | ⟨⟨name, o⟩, members⟩ <;> exact ⟨_, rfl⟩
    rw [hlexemes] at hread
    obtain ⟨tok, rest, hrest, rfl, hls⟩ := hread.first (by decide : isBlank '{' = false)
    have hinside : (c.skipBlank.pass 1).CanRead (Outline.object members).lexemes.tail post := by
      rw [hlexemes]
      refine Cursor.canRead_of_rest ?_ hls
      rw [Cursor.pass, hrest]
      rfl
    obtain ⟨s, next, hs, houtline, hnext⟩ := readObject_complete ih hnodup hinside
    refine ⟨s, next, ?_, houtline, hnext⟩
    rw [readValue.eq_def]
    simp only [Cursor.peek, hrest]
    exact hs
  | @array levels items _ ih =>
    intro c post hread _
    obtain ⟨ls, hlexemes⟩ : ∃ ls, (Outline.array items).lexemes = .mark '[' :: ls := by
      rcases items with _ | ⟨o, items⟩ <;> exact ⟨_, rfl⟩
    rw [hlexemes] at hread
    obtain ⟨tok, rest, hrest, rfl, hls⟩ := hread.first (by decide : isBlank '[' = false)
    have hinside : (c.skipBlank.pass 1).CanRead (Outline.array items).lexemes.tail post := by
      rw [hlexemes]
      refine Cursor.canRead_of_rest ?_ hls
      rw [Cursor.pass, hrest]
      rfl
    obtain ⟨s, next, hs, houtline, hnext⟩ := readArray_complete ih hinside
    refine ⟨s, next, ?_, houtline, hnext⟩
    rw [readValue.eq_def]
    simp only [Cursor.peek, hrest]
    exact hs
  | scalar levels s =>
    intro c post hread hpost
    have hlexemes : (Outline.scalar s).lexemes =
        [if s.isQuoted then .text s.text else .bare s.text] := by
      rw [Outline.lexemes]
      split <;> rfl
    rw [hlexemes] at hread
    obtain ⟨tok, rest, hrest, htok, hblank⟩ := hread.first (by split <;> exact trivial)
    have hbehind : Stops (rest ++ post) := by
      cases hblank with
      | nil hblanks => exact hpost.blank_append hblanks
    obtain ⟨first, v, next, hpeek, hbracket, hv, houtline, hnext⟩ :=
      readScalar_complete htok hrest hbehind
    refine ⟨v, next, ?_, houtline, by rw [hnext, hblank.dropBlank_eq]⟩
    rw [readValue.eq_def]
    simp only [hpeek]
    rw [if_neg (by rw [hbracket]; decide)]
    exact hv

end Source

/-! ### Whole texts -/

/-- A text that is read is written in the structure that is read. -/
theorem isWritten_of_readJson {text : String} {s : Source} (h : readJson text = .ok s) :
    s.outline.IsWritten text.toList := by
  rw [readJson] at h
  obtain ⟨⟨value, next⟩, hvalue, h⟩ := Except.bind_eq_ok_iff.1 h
  obtain ⟨hfits, hpasses⟩ := Source.readValue_sound _ hvalue
  simp only at h
  split at h
  · rename_i hend
    obtain rfl := Except.ok.inj h
    obtain ⟨cs, hcs, hspells⟩ := hpasses.trans next.passes_skipBlank
    refine ⟨?_, hfits⟩
    rw [List.isEmpty_iff.1 hend, List.append_nil] at hcs
    rw [List.append_nil] at hspells
    show Spells _ (Cursor.ofText text .start).rest
    rwa [hcs]
  · simp at h

/-- A text that is written in a structure is read, and that structure is read. -/
theorem exists_readJson {text : String} {o : Outline} (h : o.IsWritten text.toList) :
    ∃ s, readJson text = .ok s ∧ s.outline = o := by
  obtain ⟨hspells, hfits⟩ := h
  have hread : (Cursor.ofText text .start).CanRead o.lexemes [] :=
    Cursor.canRead_of_rest (List.append_nil _).symm hspells
  obtain ⟨s, next, hs, houtline, hnext⟩ :=
    Source.readValue_complete hfits hread Source.stops_nil
  refine ⟨s, Except.bind_eq_ok_iff.2 ⟨_, hs, ?_⟩, houtline⟩
  have hend : next.skipBlank.atEnd = true := by
    rw [Cursor.atEnd, Cursor.skipBlank_rest, hnext]
    rfl
  show (if next.skipBlank.atEnd then _ else _) = _
  rw [if_pos hend]

/-- A text is read exactly if it is a JSON text: white space aside, the tokens of one structure and
nothing else, with different names in every object and containers at most 128 deep. Its value has
this structure, with every part at its place. -/
theorem readJson_recognizes (text document : String) :
    ((∃ s, readJson text = .ok s) ↔ ∃ o : Outline, o.IsWritten text.toList) ∧
    ∀ o : Outline, o.IsWritten text.toList ↔
      ∃ s, readJson text = .ok s ∧
        (Draft.ofSource s).freeze document = o.placed (.root document) := by
  refine ⟨⟨?_, ?_⟩, fun o => ⟨?_, ?_⟩⟩
  · rintro ⟨s, hs⟩
    exact ⟨s.outline, isWritten_of_readJson hs⟩
  · rintro ⟨o, ho⟩
    obtain ⟨s, hs, -⟩ := exists_readJson ho
    exact ⟨s, hs⟩
  · intro ho
    obtain ⟨s, hs, rfl⟩ := exists_readJson ho
    exact ⟨s, hs, Draft.freeze_ofSource (readJson_namesDiffer hs) document⟩
  · rintro ⟨s, hs, hfreeze⟩
    -- the value shows the structure that was read
    rw [Draft.freeze_ofSource (readJson_namesDiffer hs)] at hfreeze
    rw [← Outline.placed_injective hfreeze]
    exact isWritten_of_readJson hs

end DocQuery
