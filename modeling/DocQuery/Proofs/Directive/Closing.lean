/-
The parenthesis after an expression is the one that closes the call around it.

* `ParenScan.GoesThrough` — a scan for the closing parenthesis that passes over a whole text;
* `tokensFrom_goesThrough` — it passes over every token, and only parentheses change its depth;
* `closingOffset?_of_parse` — the parenthesis before an expression is closed behind it.

Design notes: the scan knows nothing of tokens, but it changes to another state only at characters
that no name, no number and no symbol contains, and it reads quotations as the lexer does. So the
scan is followed token by token, and the tokens of a tree have their parentheses in pairs.
-/
import DocQuery.Directive.Spelling
import DocQuery.Proofs.Expr.Grouping
import DocQuery.Proofs.Source.Grammar
import DocQuery.Proofs.Text.Quoting

namespace DocQuery

/-- Whether a character is neither a quote nor a parenthesis. -/
def isPlainChar (c : Char) : Bool :=
  !(['\'', '"', '(', ')'].contains c)

/-- The characters of a class are plain if the four others are not in it. -/
theorem isPlainChar_of {p : Char → Bool} (hp : (['\'', '"', '(', ')'].all fun c => !p c) = true)
    {c : Char} (hc : p c) : isPlainChar c := by
  rw [isPlainChar, Bool.not_eq_true', List.contains_eq_mem, decide_eq_false_iff_not]
  intro hmem
  have hnot := List.all_eq_true.1 hp c hmem
  rw [hc] at hnot
  cases hnot

/-- Whether the arrow and the operators of a language that are symbols have neither quotes nor
parentheses in them. -/
def Language.hasPlainSymbols (l : Language) : Bool :=
  (l.arrow :: l.symbolOperators).all fun word => word.toList.all isPlainChar

theorem Language.standard_hasPlainSymbols : Language.standard.hasPlainSymbols := by
  decide +kernel

namespace ParenScan

/-- The scan outside of quotations. -/
def outside (depth : Nat) : ParenScan := ⟨depth, none, false⟩

/-- Whether the scan goes through a text without finding the closing parenthesis, from one state to
another. -/
def GoesThrough (s : ParenScan) (cs : List Char) (s' : ParenScan) : Prop :=
  ∀ post, s.closing? (cs ++ post) = (s'.closing? post).map (· + cs.length)

variable {s s' s'' : ParenScan} {cs ds : List Char} {c q : Char} {depth : Nat}

theorem goesThrough_nil (s : ParenScan) : s.GoesThrough [] s := by
  intro post
  simp

theorem GoesThrough.append (h : s.GoesThrough cs s') (h' : s'.GoesThrough ds s'') :
    s.GoesThrough (cs ++ ds) s'' := by
  intro post
  rw [List.append_assoc, h, h', Option.map_map, List.length_append]
  congr 1
  funext n
  show n + ds.length + cs.length = n + (cs.length + ds.length)
  omega

/-- A character is passed unless it is the closing parenthesis. -/
theorem goesThrough_char (h : (s.quote.isNone && c == ')' && decide (s.depth ≤ 1)) = false) :
    s.GoesThrough [c] (s.step c) := by
  intro post
  rw [List.singleton_append, closing?, h]
  rfl

theorem goesThrough_plain (hc : isPlainChar c) :
    (outside depth).GoesThrough [c] (outside depth) := by
  simp only [isPlainChar, Bool.not_eq_true', List.contains_eq_mem, decide_eq_false_iff_not,
    List.mem_cons, List.not_mem_nil, or_false, not_or] at hc
  obtain ⟨hsingle, hdouble, hopen, hclose⟩ := hc
  have hstep : (outside depth).step c = outside depth := by
    simp [step, outside, hsingle, hdouble, hopen, hclose]
  have h := goesThrough_char (s := outside depth) (c := c) (by simp [hclose])
  rwa [hstep] at h

theorem goesThrough_all_plain (hcs : ∀ c ∈ cs, isPlainChar c) :
    (outside depth).GoesThrough cs (outside depth) := by
  induction cs with
  | nil => exact goesThrough_nil _
  | cons c cs ih =>
    have hrest := ih fun d hd => hcs d (List.mem_cons_of_mem _ hd)
    exact (goesThrough_plain (hcs c List.mem_cons_self)).append hrest

/-! ### Quotations -/

/-- The scan inside a quotation. -/
def inside (depth : Nat) (quote : Char) : ParenScan := ⟨depth, some quote, false⟩

/-- A character of a quotation is passed by itself unless it ends it or escapes the next one. -/
theorem goesThrough_quoted (hquote : c ≠ q) (hescape : c ≠ '\\') :
    (inside depth q).GoesThrough [c] (inside depth q) := by
  have hstep : (inside depth q).step c = inside depth q := by
    simp [step, inside, hquote, hescape]
  have h := goesThrough_char (s := inside depth q) (c := c) rfl
  rwa [hstep] at h

/-- An escaped character is passed with its backslash. -/
theorem goesThrough_escaped (c : Char) :
    (inside depth q).GoesThrough ['\\', c] (inside depth q) := by
  have hbackslash := goesThrough_char (s := inside depth q) (c := '\\') rfl
  have hnext := goesThrough_char (s := (inside depth q).step '\\') (c := c) rfl
  have hstep : ((inside depth q).step '\\').step c = inside depth q := by
    simp [step, inside]
  rw [hstep] at hnext
  exact hbackslash.append hnext

theorem goesThrough_openQuote (hq : q = '\'' ∨ q = '"') :
    (outside depth).GoesThrough [q] (inside depth q) := by
  have hchar := goesThrough_char (s := outside depth) (c := q) (by
    rcases hq with rfl | rfl <;> rfl)
  have hstep : (outside depth).step q = inside depth q := by
    rcases hq with rfl | rfl <;> simp [step, inside, outside]
  rwa [hstep] at hchar

theorem goesThrough_closeQuote (hq : q = '\'' ∨ q = '"') :
    (inside depth q).GoesThrough [q] (outside depth) := by
  have hend := goesThrough_char (s := inside depth q) (c := q) rfl
  have hstep : (inside depth q).step q = outside depth := by
    rcases hq with rfl | rfl <;> simp [step, inside, outside]
  rwa [hstep] at hend

theorem goesThrough_all_quoted (hcs : ∀ c ∈ cs, c ≠ q ∧ c ≠ '\\') :
    (inside depth q).GoesThrough cs (inside depth q) := by
  induction cs with
  | nil => exact goesThrough_nil _
  | cons c cs ih =>
    have hrest := ih fun d hd => hcs d (List.mem_cons_of_mem _ hd)
    obtain ⟨hquote, hescape⟩ := hcs c List.mem_cons_self
    exact (goesThrough_quoted hquote hescape).append hrest

open Text

theorem readFourDigits_isHexDigit {code : Nat} (h : readFourDigits cs = .ok code) :
    ∀ c ∈ cs.take 4, isHexDigit c := by
  rw [readFourDigits] at h
  split at h
  · rename_i hfour
    have hprefix := List.takeWhile_prefix isHexDigit (l := cs.take 4)
    have hall : (cs.take 4).takeWhile isHexDigit = cs.take 4 :=
      hprefix.eq_of_length_le (by rw [hfour, List.length_take]; omega)
    intro c hc
    rw [← hall] at hc
    exact List.mem_takeWhile_imp hc
  · cases h

theorem ne_of_isHexDigit (hq : q = '\'' ∨ q = '"') (h : isHexDigit c) : c ≠ q ∧ c ≠ '\\' := by
  constructor
  · rintro rfl
    rcases hq with rfl | rfl <;> revert h <;> decide
  · rintro rfl
    revert h
    decide

theorem goesThrough_digits (depth : Nat) (hq : q = '\'' ∨ q = '"') {code : Nat}
    (h : readFourDigits cs = .ok code) :
    (inside depth q).GoesThrough (cs.take 4) (inside depth q) :=
  goesThrough_all_quoted fun c hc => ne_of_isHexDigit hq (readFourDigits_isHexDigit h c hc)

/-- An escape is passed as a whole. -/
theorem goesThrough_escape (hq : q = '\'' ∨ q = '"') {n : Nat}
    (h : escapePiece cs = .char c (n + 1)) :
    (inside depth q).GoesThrough ('\\' :: cs.take n) (inside depth q) := by
  rcases cs with _ | ⟨d, cs⟩
  · cases h
  rcases eq_or_ne d 'u' with rfl | hd
  · rw [escapePiece, unicodePiece] at h
    split at h
    · cases h
    · rename_i code hcode
      have hfirst := goesThrough_digits depth hq hcode
      split at h
      · split at h
        · rename_i rest hdrop
          split at h
          · cases h
          · -- a pair: another escape of four digits follows
            rename_i low hlow
            obtain ⟨-, hwidth⟩ := Piece.char.inj h
            obtain rfl : n = 11 := by omega
            have hsecond := goesThrough_digits depth hq hlow
            have hsplit : '\\' :: ('u' :: cs).take 11 =
                ['\\', 'u'] ++ (cs.take 4 ++ (['\\', 'u'] ++ rest.take 4)) := by
              have htake : cs.take 10 = cs.take 4 ++ (cs.drop 4).take 6 := by
                rw [← List.take_add]
              rw [List.take_succ_cons, htake, hdrop]
              rfl
            rw [hsplit]
            exact (goesThrough_escaped 'u').append
              (hfirst.append ((goesThrough_escaped 'u').append hsecond))
        · cases h
      · split at h
        · obtain ⟨-, hwidth⟩ := Piece.char.inj h
          obtain rfl : n = 5 := by omega
          exact (goesThrough_escaped 'u').append hfirst
        · cases h
  · rw [escapePiece.eq_3 d cs hd] at h
    split at h
    · obtain ⟨-, hwidth⟩ := Piece.char.inj h
      obtain rfl : n = 1 := by omega
      exact goesThrough_escaped d
    · cases h

theorem goesThrough_piece (hq : q = '\'' ∨ q = '"') {width : Nat}
    (h : nextPiece q cs = .char c width) :
    (inside depth q).GoesThrough (cs.take width) (inside depth q) := by
  obtain ⟨n, rfl, -, -⟩ := nextPiece_stable h
  rcases cs with _ | ⟨d, cs⟩
  · cases h
  rw [nextPiece] at h
  split at h
  · cases h
  split at h
  · cases h
  rename_i hquote
  split at h
  · rename_i hescape
    rw [List.take_succ_cons, hescape]
    exact goesThrough_escape hq h
  · rename_i hplain
    obtain ⟨-, hwidth⟩ := Piece.char.inj h
    obtain rfl : n = 0 := by omega
    exact goesThrough_quoted hquote hplain

/-- A quotation is passed up to and with its closing quote. -/
theorem goesThrough_readQuotedRest (depth : Nat) (hq : q = '\'' ∨ q = '"') {fuel offset : Nat}
    {r : Quoted} (h : readQuotedRest q fuel offset cs = .ok r) :
    (inside depth q).GoesThrough (cs.take (r.width - offset)) (outside depth) := by
  induction fuel generalizing offset cs r with
  | zero => cases h
  | succ fuel ih =>
    obtain ⟨m, hm, -, -⟩ := readQuotedRest_stable h
    rw [readQuotedRest] at h
    split at h
    · rename_i hclose
      obtain rfl := Except.ok.inj h
      obtain ⟨rest, rfl, -⟩ := eq_cons_of_nextPiece_close hclose
      have hwidth : offset + 1 - offset = 1 := by omega
      simp only [hwidth]
      exact goesThrough_closeQuote hq
    · cases h
    · cases h
    · rename_i c width hpiece
      obtain ⟨rest, hrest, h⟩ := Except.bind_eq_ok_iff.1 h
      obtain rfl := Except.ok.inj h
      obtain ⟨k, hk, -, -⟩ := readQuotedRest_stable hrest
      have hsplit : rest.width - offset = width + (rest.width - (offset + width)) := by omega
      simp only [hsplit, List.take_add]
      exact (goesThrough_piece hq hpiece).append (ih hrest)

theorem goesThrough_readQuoted {r : Quoted} (h : readQuoted cs = .ok r) :
    (outside depth).GoesThrough (cs.take r.width) (outside depth) := by
  obtain ⟨hpos, -, -⟩ := readQuoted_stable h
  rcases cs with _ | ⟨q, cs⟩
  · cases h
  rw [readQuoted] at h
  split at h
  · rename_i hquote
    have hq : q = '\'' ∨ q = '"' := by simpa using hquote
    obtain ⟨n, hn⟩ : ∃ n, r.width = n + 1 := ⟨r.width - 1, by omega⟩
    have hbody := goesThrough_readQuotedRest depth hq h
    rw [hn, List.take_succ_cons]
    rw [hn, Nat.add_sub_cancel] at hbody
    exact (goesThrough_openQuote hq).append hbody
  · cases h

/-! ### Tokens -/

/-- The number of open parentheses behind tokens, unless one of them closes the parenthesis around
all of them. -/
def depthAfter : (depth : Nat) → List TokenKind → Option Nat
  | depth, [] => some depth
  | depth, .leftParen :: kinds => depthAfter (depth + 1) kinds
  | depth, .rightParen :: kinds => if depth ≤ 1 then none else depthAfter (depth - 1) kinds
  | depth, _ :: kinds => depthAfter depth kinds

/-- Whether tokens have no parenthesis among them. -/
def IsFlat (kinds : List TokenKind) : Prop :=
  .leftParen ∉ kinds ∧ .rightParen ∉ kinds

theorem depthAfter_append (depth : Nat) (as bs : List TokenKind) :
    depthAfter depth (as ++ bs) = (depthAfter depth as).bind fun d => depthAfter d bs := by
  induction as generalizing depth with
  | nil => rfl
  | cons kind as ih =>
    cases kind with
    | rightParen =>
      rw [List.cons_append, depthAfter, depthAfter]
      split
      · rfl
      · exact ih _
    | _ => exact ih _

theorem depthAfter_singleton {kind : TokenKind} (h : IsFlat [kind]) :
    depthAfter depth [kind] = some depth := by
  cases kind with
  | leftParen => exact absurd List.mem_cons_self h.1
  | rightParen => exact absurd List.mem_cons_self h.2
  | _ => rfl

theorem depthAfter_flat {kinds : List TokenKind} (h : IsFlat kinds) :
    depthAfter depth kinds = some depth := by
  induction kinds with
  | nil => rfl
  | cons kind kinds ih =>
    simp only [IsFlat, List.mem_cons, not_or] at h ih
    have hkind : depthAfter depth [kind] = some depth :=
      depthAfter_singleton (by simp [IsFlat, h.1.1, h.2.1])
    have happend := depthAfter_append depth [kind] kinds
    rw [hkind, Option.bind_some, ih ⟨h.1.2, h.2.2⟩] at happend
    exact happend

/-- Whether the scan goes through the text of a token as the depth of that token says. -/
def Tracks (kind : TokenKind) (cs : List Char) : Prop :=
  ∀ depth depth', depthAfter depth [kind] = some depth' →
    (outside depth).GoesThrough cs (outside depth')

theorem tracks_of_flat {kind : TokenKind} (hkind : IsFlat [kind])
    (h : ∀ depth, (outside depth).GoesThrough cs (outside depth)) : Tracks kind cs := by
  intro depth depth' hdepth
  rw [depthAfter_singleton hkind] at hdepth
  obtain rfl := Option.some.inj hdepth
  exact h depth

theorem tracks_plain {kind : TokenKind} (hkind : IsFlat [kind]) (h : ∀ c ∈ cs, isPlainChar c) :
    Tracks kind cs :=
  tracks_of_flat hkind fun _ => goesThrough_all_plain h

theorem tracks_punctuation {kind : TokenKind} (h : punctuation? c = some kind) :
    Tracks kind [c] := by
  unfold punctuation? at h
  split at h
  · obtain rfl := Option.some.inj h
    intro depth depth' hdepth
    obtain rfl : depth + 1 = depth' := by simpa [depthAfter] using hdepth
    exact goesThrough_char (s := outside depth) (c := '(') (by simp)
  · obtain rfl := Option.some.inj h
    intro depth depth' hdepth
    rw [depthAfter] at hdepth
    split at hdepth
    · cases hdepth
    · rename_i hmany
      obtain rfl : depth - 1 = depth' := by simpa [depthAfter] using hdepth
      refine goesThrough_char (s := outside depth) (c := ')') ?_
      exact Bool.and_eq_false_iff.2 (.inr (decide_eq_false hmany))
  · obtain rfl := Option.some.inj h
    exact tracks_of_flat (by simp [IsFlat]) fun _ => goesThrough_plain (by decide)
  · obtain rfl := Option.some.inj h
    exact tracks_of_flat (by simp [IsFlat]) fun _ => goesThrough_plain (by decide)
  · obtain rfl := Option.some.inj h
    exact tracks_of_flat (by simp [IsFlat]) fun _ => goesThrough_plain (by decide)
  · cases h

/-! ### Texts of tokens -/

theorem isPlainChar_of_isDigit (h : c.isDigit) : isPlainChar c :=
  isPlainChar_of (p := Char.isDigit) (by decide) h

theorem isPlainChar_of_isHexDigit (h : isHexDigit c) : isPlainChar c :=
  isPlainChar_of (p := isHexDigit) (by decide) h

theorem isPlainChar_of_isNameChar (h : isNameChar c) : isPlainChar c :=
  isPlainChar_of (p := isNameChar) (by decide) h

theorem isPlainChar_of_isBlank (h : isBlank c) : isPlainChar c :=
  isPlainChar_of (p := isBlank) (by decide) h

theorem isPlainChar_takeWhile (cs : List Char) {p : Char → Bool} (hp : ∀ {c}, p c → isPlainChar c) :
    ∀ c ∈ cs.takeWhile p, isPlainChar c :=
  fun _ hc => hp (List.mem_takeWhile_imp hc)

theorem isPlainChar_leadingFraction : ∀ c ∈ Number.leadingFraction cs, isPlainChar c := by
  unfold Number.leadingFraction
  split
  · rename_i rest
    have hdigits := isPlainChar_takeWhile rest isPlainChar_of_isDigit
    split
    · simp
    · intro c hc
      rcases List.mem_cons.1 hc with rfl | hc
      · decide
      · exact hdigits c hc
  · simp

theorem isPlainChar_leadingExponent : ∀ c ∈ Number.leadingExponent cs, isPlainChar c := by
  unfold Number.leadingExponent
  split
  · simp
  · rename_i letter rest
    split
    · rename_i hletter
      have hdigits := isPlainChar_takeWhile (rest.drop (Number.leadingSign rest).length)
        isPlainChar_of_isDigit
      simp only
      split
      · simp
      · intro c hc
        rcases List.mem_cons.1 hc with rfl | hc
        · rcases Bool.or_eq_true_iff.1 hletter with h | h <;>
            rw [beq_iff_eq.1 h] <;> decide
        rcases List.mem_append.1 hc with hc | hc
        · have hsign := (List.mem_filter.1 hc).2
          rcases Bool.or_eq_true_iff.1 hsign with h | h <;> rw [beq_iff_eq.1 h] <;> decide
        · exact hdigits c hc
    · simp

theorem isPlainChar_leadingDecimal : ∀ c ∈ Number.leadingDecimal cs, isPlainChar c := by
  intro c hc
  rw [Number.leadingDecimal] at hc
  rcases List.mem_append.1 hc with hc | hc
  · rcases List.mem_append.1 hc with hc | hc
    · exact isPlainChar_takeWhile _ isPlainChar_of_isDigit c hc
    · exact isPlainChar_leadingFraction c hc
  · exact isPlainChar_leadingExponent c hc

theorem isPlainChar_leadingMagnitude : ∀ c ∈ Number.leadingMagnitude cs, isPlainChar c := by
  intro c hc
  unfold Number.leadingMagnitude at hc
  split at hc
  · rcases List.mem_cons.1 hc with rfl | hc
    · decide
    rcases List.mem_cons.1 hc with rfl | hc
    · decide
    · exact isPlainChar_takeWhile _ isPlainChar_of_isHexDigit c hc
  · rcases List.mem_cons.1 hc with rfl | hc
    · decide
    rcases List.mem_cons.1 hc with rfl | hc
    · decide
    · exact isPlainChar_takeWhile _ isPlainChar_of_isHexDigit c hc
  · exact isPlainChar_leadingDecimal c hc

theorem isPlainChar_leading : ∀ c ∈ Number.leading cs, isPlainChar c := by
  intro c hc
  unfold Number.leading at hc
  split at hc
  · rcases List.mem_cons.1 hc with rfl | hc
    · decide
    · exact isPlainChar_leadingMagnitude c hc
  · exact isPlainChar_leadingMagnitude c hc

theorem passOneOf?_rest {c next : Cursor} {words : List String} {word : String}
    (h : c.passOneOf? words = some (word, next)) : c.rest = word.toList ++ next.rest := by
  induction words with
  | nil => cases h
  | cons w words ih =>
    rw [Cursor.passOneOf?] at h
    split at h
    · exact ih h
    · split at h
      · rename_i d hpassed
        obtain ⟨rfl, rfl⟩ := Prod.mk.inj (Option.some.inj h)
        rw [Cursor.passWord?] at hpassed
        split at hpassed
        · rename_i hstarts
          obtain rfl := Option.some.inj hpassed
          exact (List.prefix_iff_eq_append.1 (List.isPrefixOf_iff_prefix.1 hstarts)).symm
        · cases hpassed
      · exact ih h

/-- The scan follows the token that comes next. -/
theorem nextToken_tracks {l : Language} (hl : l.hasPlainSymbols) {first : Char}
    {c next : Cursor} {kind : TokenKind} (hfirst : c.peek = some first)
    (h : nextToken l l.symbolOperators first c = .ok (kind, next)) :
    ∃ cs, c.rest = cs ++ next.rest ∧ Tracks kind cs := by
  have hword : ∀ word ∈ l.arrow :: l.symbolOperators, ∀ c ∈ word.toList, isPlainChar c :=
    fun word hword c hc => List.all_eq_true.1 (List.all_eq_true.1 hl word hword) c hc
  unfold nextToken at h
  split at h
  · -- a number
    obtain ⟨⟨digits, d⟩, hread, h⟩ := Except.bind_eq_ok_iff.1 h
    obtain ⟨rfl, rfl⟩ := Prod.mk.inj (Except.ok.inj h)
    have hreading := Reading.value_eq_ok_iff.1 hread
    refine ⟨digits.toList, Source.readNumber_rest hreading, ?_⟩
    refine tracks_plain (by simp [IsFlat]) ?_
    rw [Cursor.readNumber] at hreading
    split at hreading
    · simp at hreading
    · obtain ⟨hdigits, -⟩ := Prod.mk.inj hreading
      obtain rfl := Except.ok.inj hdigits
      rw [String.toList_ofList]
      exact isPlainChar_leading
  split at h
  · -- a quoted text, whose parentheses are not counted
    obtain ⟨⟨quoted, d⟩, hread, h⟩ := Except.bind_eq_ok_iff.1 h
    obtain ⟨rfl, rfl⟩ := Prod.mk.inj (Except.ok.inj h)
    have hreading := Reading.value_eq_ok_iff.1 hread
    rw [Cursor.readQuoted] at hreading
    split at hreading
    · rename_i r hr
      obtain ⟨-, rfl⟩ := Prod.mk.inj hreading
      refine ⟨c.rest.take r.width, (List.take_append_drop _ _).symm, ?_⟩
      exact tracks_of_flat (by simp [IsFlat]) fun depth => goesThrough_readQuoted hr
    · simp at hreading
  split at h
  · -- a name
    obtain ⟨⟨name, d⟩, hread, h⟩ := Except.bind_eq_ok_iff.1 h
    obtain ⟨rfl, rfl⟩ := Prod.mk.inj (Except.ok.inj h)
    have hreading := Reading.value_eq_ok_iff.1 hread
    refine ⟨name.toList, Source.readName_rest hreading, ?_⟩
    refine tracks_plain (by simp [IsFlat]) ?_
    rw [(Cursor.readName_spec hreading).1]
    exact isPlainChar_takeWhile _ isPlainChar_of_isNameChar
  split at h
  · -- the arrow
    rename_i word d harrow
    obtain ⟨rfl, rfl⟩ := Prod.mk.inj (Except.ok.inj h)
    refine ⟨word.toList, passOneOf?_rest harrow, ?_⟩
    refine tracks_plain (by simp [IsFlat]) ?_
    have hmem := (Cursor.passOneOf?_spec harrow).1
    exact hword word (by rw [List.mem_singleton.1 hmem]; exact List.mem_cons_self)
  split at h
  · -- a parenthesis, a bracket or a comma
    rename_i hkind
    obtain ⟨rfl, rfl⟩ := Prod.mk.inj (Except.ok.inj h)
    refine ⟨[first], ?_, tracks_punctuation hkind⟩
    rw [Cursor.peek] at hfirst
    obtain ⟨rest, hrest⟩ := List.head?_eq_some_iff.1 hfirst
    rw [Cursor.pass, hrest]
    rfl
  split at h
  · -- an operator
    rename_i word d hsymbol
    obtain ⟨rfl, rfl⟩ := Prod.mk.inj (Except.ok.inj h)
    refine ⟨word.toList, passOneOf?_rest hsymbol, ?_⟩
    refine tracks_plain (by simp [IsFlat]) ?_
    exact hword word (List.mem_cons_of_mem _ (Cursor.passOneOf?_spec hsymbol).1)
  · cases h

/-- The scan follows all tokens of a text. -/
theorem tokensFrom_goesThrough {l : Language} (hl : l.hasPlainSymbols) {fuel : Nat} {c : Cursor}
    {ts : Tokens} (hfuel : c.rest.length < fuel)
    (h : tokensFrom l l.symbolOperators fuel c = .ok ts) {depth depth' : Nat}
    (hdepth : depthAfter depth ts.kinds = some depth') :
    (outside depth).GoesThrough c.rest (outside depth') := by
  induction fuel generalizing c ts depth with
  | zero => exact absurd hfuel (Nat.not_lt_zero _)
  | succ fuel ih =>
    have hblank : (outside depth).GoesThrough (c.rest.takeWhile isBlank) (outside depth) :=
      goesThrough_all_plain (isPlainChar_takeWhile _ isPlainChar_of_isBlank)
    have hsplit : c.rest = c.rest.takeWhile isBlank ++ c.skipBlank.rest :=
      (List.prefix_iff_eq_append.1 (List.takeWhile_prefix isBlank)).symm
    rw [tokensFrom] at h
    simp only at h
    split at h
    · rename_i hpeek
      obtain rfl := Except.ok.inj h
      have hnil : c.skipBlank.rest = [] := List.head?_eq_none_iff.1 hpeek
      obtain rfl : depth = depth' := Option.some.inj hdepth
      rw [hsplit, hnil, List.append_nil]
      exact hblank
    · rename_i first hpeek
      obtain ⟨⟨kind, next⟩, hnext, h⟩ := Except.bind_eq_ok_iff.1 h
      obtain ⟨rest, hrest, h⟩ := Except.bind_eq_ok_iff.1 h
      obtain rfl := Except.ok.inj h
      obtain ⟨cs, hcs, htracks⟩ := nextToken_tracks hl hpeek hnext
      -- the depth behind the first token, from which the others go on
      have happend := depthAfter_append depth [kind] rest.kinds
      obtain ⟨mid, hmid, hmore⟩ := Option.bind_eq_some_iff.1 (happend.symm.trans hdepth)
      have hshorter : next.rest.length < fuel := by
        obtain ⟨n, hpos, hbehind⟩ := (nextToken_spec hpeek hnext).2
        have hsome : c.skipBlank.rest ≠ [] := by
          intro hnil
          rw [Cursor.peek, hnil] at hpeek
          cases hpeek
        have hlength : next.rest.length < c.skipBlank.rest.length := by
          rw [hbehind, Cursor.pass, List.length_drop]
          have := List.length_pos_of_ne_nil hsome
          omega
        have hle := congrArg List.length hsplit
        rw [List.length_append] at hle
        omega
      rw [hsplit, hcs]
      exact hblank.append ((htracks depth mid hmid).append (ih hshorter hrest hmore))

/-! ### Expressions -/

/-- Whether the parentheses in tokens come in pairs. -/
def Balanced (kinds : List TokenKind) : Prop :=
  ∀ depth, 1 ≤ depth → depthAfter depth kinds = some depth

theorem balanced_of_flat {kinds : List TokenKind} (h : IsFlat kinds) : Balanced kinds :=
  fun _ _ => depthAfter_flat h

theorem Balanced.append {as bs : List TokenKind} (ha : Balanced as) (hb : Balanced bs) :
    Balanced (as ++ bs) := by
  intro depth hdepth
  rw [depthAfter_append, ha depth hdepth, Option.bind_some, hb depth hdepth]

theorem Balanced.parenthesized {kinds : List TokenKind} (h : Balanced kinds) :
    Balanced (.leftParen :: (kinds ++ [.rightParen])) := by
  intro depth hdepth
  rw [depthAfter, depthAfter_append, h (depth + 1) (by omega), Option.bind_some, depthAfter,
    if_neg (by omega), depthAfter, Nat.add_sub_cancel]

theorem balanced_listedNames (names : List String) : Balanced (listedNames names) := by
  induction names with
  | nil => exact balanced_of_flat (by simp [listedNames, IsFlat])
  | cons name names ih =>
    cases names with
    | nil => exact balanced_of_flat (by simp [listedNames, IsFlat])
    | cons other names =>
      have hfirst : Balanced [.name name, .comma] := balanced_of_flat (by simp [IsFlat])
      exact hfirst.append ih

theorem balanced_headTokens (position : Position) (parameters : List Parameter) :
    Balanced (headTokens position parameters) := by
  rw [headTokens]
  split
  · exact balanced_listedNames _
  · exact (balanced_listedNames _).parenthesized

theorem balanced_token (o : Operator) : Balanced [o.token] := by
  rw [Operator.token]
  split <;> exact balanced_of_flat (by simp [IsFlat])

mutual

/-- The parentheses of an expression come in pairs. -/
theorem balanced_tokens : (e : Expr) → Balanced e.tokens
  | .name _ _ | .number _ _ | .text _ _ => balanced_of_flat (by simp [Expr.tokens, IsFlat])
  | .binary o left right _ =>
    (balanced_tokens left).append ((balanced_token o).append (balanced_tokens right))
  | .before o operand _ => (balanced_token o).append (balanced_tokens operand)
  | .after o operand _ => (balanced_tokens operand).append (balanced_token o)
  | .group inner _ => (balanced_tokens inner).parenthesized
  | .call function arguments _ => by
    have hname : Balanced [.name function] := balanced_of_flat (by simp [IsFlat])
    exact hname.append (balanced_tokensOfAll arguments).parenthesized
  | .index array indexes _ => by
    have hopen : Balanced [.name array, .leftBracket] := balanced_of_flat (by simp [IsFlat])
    have hclose : Balanced [.rightBracket] := balanced_of_flat (by simp [IsFlat])
    exact hopen.append ((balanced_tokensOfAll indexes).append hclose)
  | .lambda parameters body position => by
    have harrow : Balanced [.arrow] := balanced_of_flat (by simp [IsFlat])
    exact (balanced_headTokens position parameters).append (harrow.append (balanced_tokens body))

theorem balanced_tokensOfAll : (es : List Expr) → Balanced (Expr.tokensOfAll es)
  | [] => balanced_of_flat (by simp [Expr.tokensOfAll, IsFlat])
  | e :: es => (balanced_tokens e).append (balanced_tokensOfMore es)

theorem balanced_tokensOfMore : (es : List Expr) → Balanced (Expr.tokensOfMore es)
  | [] => balanced_of_flat (by simp [Expr.tokensOfMore, IsFlat])
  | e :: es => by
    have hcomma : Balanced [.comma] := balanced_of_flat (by simp [IsFlat])
    exact hcomma.append ((balanced_tokens e).append (balanced_tokensOfMore es))

end

end ParenScan

open ParenScan (outside)

/-- The parenthesis before an expression is closed by the one behind it. -/
theorem closingOffset?_of_parse {l : Language} (hl : l.hasPlainSymbols)
    (hbelow : ∀ o ∈ l.operators, o.precedence < 255) {text : String} {origin : Position} {e : Expr}
    (h : parseExpression l text origin = .ok e) (post : List Char) :
    closingOffset? ('(' :: (text.toList ++ ')' :: post)) = some (text.toList.length + 1) := by
  obtain ⟨⟨ts, hts, hkinds⟩, -⟩ := parseExpression_sound hbelow h
  have hbalanced := ParenScan.balanced_tokens e 1 (Nat.le_refl 1)
  rw [← hkinds] at hbalanced
  have hthrough := ParenScan.tokensFrom_goesThrough hl (Nat.lt_succ_self _) hts hbalanced
  have hopen := ParenScan.goesThrough_char (s := outside 0) (c := '(') rfl
  have hscan : (outside 0).GoesThrough ('(' :: text.toList) (outside 1) := hopen.append hthrough
  have hclose := hscan (')' :: post)
  rw [List.cons_append] at hclose
  rw [closingOffset?]
  refine hclose.trans ?_
  rw [ParenScan.closing?, if_pos (by rfl), Option.map_some, List.length_cons, Nat.zero_add]

end DocQuery
