/-
Words and what may stand behind them.

* `EndsWord` — a text that begins with a blank, a bracket or a comma, or is empty;
* `Number.leading_append` — no number goes on there;
* `isCut_identifier`, `isCut_numeral`, `isCut_quoted`, `isCut_symbol` — so the lexer cuts off names,
  numbers, quoted texts and symbols there.

Design notes: a number before such a text is as long as it is alone, however it is spelled, so it is
enough that the lexer takes all of it when nothing comes behind it. A symbol ends there because
symbols hold none of these characters, which is a condition on the language.
-/
import DocQuery.Proofs.Expr.Cutting

namespace DocQuery

/-- Whether a text begins with a blank, a bracket or a comma, or is empty. -/
def EndsWord (behind : List Char) : Prop :=
  ∀ c ∈ behind.head?, c ∈ [' ', '(', ')', '[', ']', ',']

theorem Text.isIdentifier_of_letters {name : String} (hne : name.toList ≠ [])
    (h : name.toList.all isNameStart) : IsIdentifier name := by
  obtain ⟨c, cs, hcs⟩ := List.exists_cons_of_ne_nil hne
  rw [List.all_eq_true, hcs, List.forall_mem_cons] at h
  exact ⟨c, cs, hcs, h.1, fun d hd => isNameChar_of_isNameStart (h.2 d hd)⟩

/-- Whether a text begins with a digit and is a number that the lexer takes whole. -/
def Text.IsNumeral (digits : String) : Prop :=
  ∃ c cs, digits.toList = c :: cs ∧ c.isDigit ∧ Number.leading (c :: cs) = c :: cs

theorem endsWord_nil : EndsWord [] := nofun

theorem endsWord_cons {c : Char} {behind : List Char} (h : c ∈ [' ', '(', ')', '[', ']', ',']) :
    EndsWord (c :: behind) := by
  intro d hd
  obtain rfl := Option.some.inj hd
  exact h

/-- A class of characters that holds no blank, no bracket and no comma ends there. -/
theorem EndsWord.forall_head {p : Char → Bool} {behind : List Char} (h : EndsWord behind)
    (hp : ([' ', '(', ')', '[', ']', ','].all fun c => !p c) = true) :
    ∀ c ∈ behind.head?, p c = false := by
  intro c hc
  have hall := List.all_eq_true.1 hp c (h c hc)
  rwa [Bool.not_eq_true'] at hall

/-- Whether nothing but an operator begins with the first character of a symbol. -/
def isSymbolic (symbol : String) : Bool :=
  symbol.toList.head?.all fun c => beginsSymbol c && (punctuation? c).isNone

/-! ### Numbers -/

/-- A run of characters is as long as before if what is added begins with another sort. -/
theorem takeWhile_append_of_head {p : Char → Bool} {behind : List Char}
    (h : ∀ c ∈ behind.head?, p c = false) (cs : List Char) :
    (cs ++ behind).takeWhile p = cs.takeWhile p := by
  induction cs with
  | nil => exact @Source.takeWhile_run p [] behind nofun h
  | cons c cs ih =>
    rw [List.cons_append, List.takeWhile_cons, List.takeWhile_cons, ih]

namespace Number

variable {behind : List Char}

theorem leadingFraction_append (h : EndsWord behind) (cs : List Char) :
    leadingFraction (cs ++ behind) = leadingFraction cs := by
  have hdigits := takeWhile_append_of_head (h.forall_head (p := Char.isDigit) (by decide))
  rcases cs with _ | ⟨c, cs⟩
  · -- what is added begins with no point
    show leadingFraction behind = []
    unfold leadingFraction
    split
    · exact absurd (h '.' rfl) (by decide)
    · rfl
  · by_cases hc : c = '.'
    · subst hc
      rw [List.cons_append, leadingFraction, leadingFraction, hdigits]
    · have hnone : ∀ ds, leadingFraction (c :: ds) = [] := by
        intro ds
        unfold leadingFraction
        split
        · rename_i heq
          exact absurd (List.cons.inj heq).1 hc
        · rfl
      rw [List.cons_append, hnone, hnone]

theorem leadingSign_append (h : EndsWord behind) (cs : List Char) :
    leadingSign (cs ++ behind) = leadingSign cs := by
  rcases cs with _ | ⟨c, cs⟩
  · rcases behind with _ | ⟨d, behind⟩
    · rfl
    · have hsign : (d == '+' || d == '-') = false :=
        h.forall_head (p := fun c => c == '+' || c == '-') (by decide) d rfl
      simp [leadingSign, hsign]
  · rfl

theorem leadingExponent_append (h : EndsWord behind) (cs : List Char) :
    leadingExponent (cs ++ behind) = leadingExponent cs := by
  have hdigits := takeWhile_append_of_head (h.forall_head (p := Char.isDigit) (by decide))
  rcases cs with _ | ⟨c, cs⟩
  · rcases behind with _ | ⟨d, behind⟩
    · rfl
    · have hletter : (d == 'e' || d == 'E') = false :=
        h.forall_head (p := fun c => c == 'e' || c == 'E') (by decide) d rfl
      show (if (d == 'e' || d == 'E') = true then _ else []) = []
      rw [if_neg (by simp [hletter])]
  · have hsign : (leadingSign cs).length ≤ cs.length :=
      Nat.le_trans (List.length_filter_le _ _) (by rw [List.length_take]; omega)
    rw [List.cons_append, leadingExponent, leadingExponent, leadingSign_append h]
    simp only [List.drop_append_of_le_length hsign, hdigits]

theorem leadingDecimal_append (h : EndsWord behind) (cs : List Char) :
    leadingDecimal (cs ++ behind) = leadingDecimal cs := by
  have hdigits := takeWhile_append_of_head (h.forall_head (p := Char.isDigit) (by decide))
  have hwhole : (cs.takeWhile Char.isDigit).length ≤ cs.length :=
    (List.takeWhile_sublist _).length_le
  have hfraction := (Source.leadingFraction_isPrefix
    (cs.drop (cs.takeWhile Char.isDigit).length)).length_le
  rw [List.length_drop] at hfraction
  rw [leadingDecimal, leadingDecimal]
  simp only [hdigits, List.drop_append_of_le_length hwhole, leadingFraction_append h]
  rw [List.drop_append_of_le_length (by omega), leadingExponent_append h]

theorem leadingMagnitude_append (h : EndsWord behind) (cs : List Char) :
    leadingMagnitude (cs ++ behind) = leadingMagnitude cs := by
  have hhex := takeWhile_append_of_head (h.forall_head (p := Text.isHexDigit) (by decide))
  -- nothing that is added makes a number hexadecimal
  have hplain : ∀ ds, (∀ x tail, ds = '0' :: x :: tail → x ≠ 'x' ∧ x ≠ 'X') →
      leadingMagnitude ds = leadingDecimal ds := by
    intro ds hds
    unfold leadingMagnitude
    split
    · exact absurd rfl (hds _ _ rfl).1
    · exact absurd rfl (hds _ _ rfl).2
    · rfl
  have hnot : ∀ x ∈ behind.head?, x ≠ 'x' ∧ x ≠ 'X' := by
    intro x hx
    simpa using h.forall_head (p := fun c => c == 'x' || c == 'X') (by decide) x hx
  by_cases hcs : ∃ x tail, cs = '0' :: x :: tail ∧ (x = 'x' ∨ x = 'X')
  · obtain ⟨x, tail, rfl, rfl | rfl⟩ := hcs
    · exact congrArg ('0' :: 'x' :: ·) (hhex tail)
    · exact congrArg ('0' :: 'X' :: ·) (hhex tail)
  · push Not at hcs
    rw [hplain cs hcs, hplain (cs ++ behind), leadingDecimal_append h]
    intro x tail heq
    rcases cs with _ | ⟨c, _ | ⟨d, ds⟩⟩
    · have hzero : behind = '0' :: x :: tail := heq
      exact absurd (h '0' (by rw [hzero]; rfl)) (by decide)
    · have hx : behind = x :: tail := (List.cons.inj heq).2
      exact hnot x (by rw [hx]; rfl)
    · obtain ⟨hc, hrest⟩ := List.cons.inj heq
      obtain ⟨hd, -⟩ := List.cons.inj hrest
      exact hcs x ds (by rw [hc, hd])

/-- What is added to a number is no part of it if it begins with a blank, a bracket or a comma. -/
theorem leading_append (h : EndsWord behind) (cs : List Char) :
    leading (cs ++ behind) = leading cs := by
  have hplain : ∀ ds : List Char, ds.head? ≠ some '-' → leading ds = leadingMagnitude ds := by
    intro ds hds
    unfold leading
    split
    · exact absurd rfl hds
    · rfl
  rcases cs with _ | ⟨c, cs⟩
  · have hminus : behind.head? ≠ some '-' := fun hc => absurd (h '-' hc) (by decide)
    rw [List.nil_append, hplain behind hminus, hplain [] nofun]
    exact leadingMagnitude_append h []
  · by_cases hc : c = '-'
    · subst hc
      exact congrArg ('-' :: ·) (leadingMagnitude_append h cs)
    · rw [hplain _ (by simpa using hc), hplain _ (by simpa using hc), leadingMagnitude_append h]

end Number

/-! ### Tokens -/

section

variable {l : Language} {behind : List Char} {symbol : String}

theorem isCut_identifier {name : String} (h : Text.IsIdentifier name) (hbehind : EndsWord behind) :
    TokenKind.IsCut l behind (.name name) name.toList := by
  have hchars := h.forall_isNameChar
  obtain ⟨c, cs, hname, hstart, -⟩ := h
  rw [hname] at hchars ⊢
  rw [← String.ofList_toList (s := name), hname]
  exact .name hstart (Source.takeWhile_run hchars (hbehind.forall_head (by decide +kernel)))

theorem isCut_numeral {digits : String} (h : Text.IsNumeral digits) (hbehind : EndsWord behind) :
    TokenKind.IsCut l behind (.number digits) digits.toList := by
  obtain ⟨c, cs, hdigits, hdigit, hleading⟩ := h
  rw [hdigits, ← String.ofList_toList (s := digits), hdigits]
  exact .number hdigit (by rw [Number.leading_append hbehind, hleading])

/-- A text between quotes is cut off whatever stands behind it. -/
theorem isCut_quoted (content : String) (behind : List Char) :
    TokenKind.IsCut l behind (.text content) (Json.writeQuoted content) := by
  obtain ⟨quoted, hread, htext, hwidth⟩ := Text.readQuoted_writeQuoted content
  have hstable := (Text.readQuoted_stable hread).2.2 behind
  rw [hwidth, List.take_length] at hstable
  rw [← String.ofList_toList (s := content), ← htext]
  refine .text (.inr rfl) ?_ ?_
  · rwa [htext, String.ofList_toList]
  · rw [hwidth, htext, String.ofList_toList]
    rfl

theorem isCut_mark {c : Char} {kind : TokenKind} (h : punctuation? c = some kind)
    (harrow : ∀ d ∈ l.arrow.toList.head?, d ≠ c) : TokenKind.IsCut l behind kind [c] := by
  refine .mark h ?_
  by_contra hfits
  obtain ⟨hne, hbegin⟩ := fitsAt_iff.1 (Bool.not_eq_false _ ▸ hfits)
  obtain ⟨d, ds, hds⟩ := List.exists_cons_of_ne_nil hne
  rw [hds] at hbegin
  exact harrow d (by rw [hds]; rfl) (List.cons_prefix_cons.1 hbegin).1

/-- A beginning of a text ends before a character that it does not hold. -/
theorem prefix_of_prefix_append {cs ds : List Char} (h : cs <+: ds ++ behind)
    (hbehind : ∀ c ∈ behind.head?, c ∉ cs) : cs <+: ds := by
  rcases List.prefix_or_prefix_of_prefix h (List.prefix_append ds behind) with hcs | hds
  · exact hcs
  · obtain ⟨more, rfl⟩ := hds
    obtain ⟨tail, htail⟩ := (List.prefix_append_right_inj ds).1 h
    rcases more with _ | ⟨c, more⟩
    · simp
    · have hhead : c ∈ behind.head? := by rw [← htail]; rfl
      exact absurd (List.mem_append_right ds List.mem_cons_self) (hbehind c hhead)

/-- A symbol is cut off before a character that neither the arrow nor a symbol holds. -/
theorem isCut_symbol (hsymbol : l.HasSymbol symbol) (hbegins : isSymbolic symbol)
    (harrow : fitsAt symbol.toList l.arrow = false)
    (hbehind : ∀ d ∈ behind.head?, d ∉ l.arrow.toList ∧ ∀ s, l.HasSymbol s → d ∉ s.toList) :
    TokenKind.IsCut l behind (.operator symbol) symbol.toList := by
  have hnoarrow : fitsAt (symbol.toList ++ behind) l.arrow = false := by
    by_contra hfits
    obtain ⟨hne, hbegin⟩ := fitsAt_iff.1 (Bool.not_eq_false _ ▸ hfits)
    have hinside := prefix_of_prefix_append hbegin fun d hd => (hbehind d hd).1
    exact Bool.false_ne_true (harrow.symm.trans (fitsAt_iff.2 ⟨hne, hinside⟩))
  have hlongest : l.IsLongestSymbol symbol (symbol.toList ++ behind) := by
    refine ⟨hsymbol, List.prefix_append _ _, fun other hother hbegin => ?_⟩
    exact (prefix_of_prefix_append hbegin fun d hd => (hbehind d hd).2 other hother).length_le
  obtain ⟨c, cs, hspelled⟩ := List.exists_cons_of_ne_nil hsymbol.ne_nil
  rw [isSymbolic, hspelled] at hbegins
  simp only [List.head?_cons, Option.all_some, Bool.and_eq_true, Option.isNone_iff_eq_none]
    at hbegins
  rw [hspelled] at hnoarrow hlongest ⊢
  exact .operator hspelled hbegins.1 hbegins.2 hnoarrow hlongest

end

end DocQuery
