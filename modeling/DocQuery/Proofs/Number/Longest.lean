/-
The number at the start of a text is as long as it can be.

* `Number.IsDecimal` — a minus, digits, a fraction and an exponent, each of which may be missing;
* `Number.BeginsHexadecimal` — a text at whose start hexadecimal digits are announced;
* `Number.isDecimal_leading`, `Number.isPrefix_leading` — what is found at the start of any other
  text is a decimal number, and every decimal number there is a beginning of it;
* `Number.IsDecimal.digit_behind_point`, `Number.IsDecimal.exponent_at_letter` — what a point and an
  `e` in a decimal number are followed by;
* `Cursor.readNumber_longest` — what is read, when that fails, and where the cursor stops.

Design notes: the parts are found one after the other without going back. That is enough, because no
part begins with a character that the part before it could have gone on with: a decimal number that
stops within a part has none of the parts behind it.
-/
import DocQuery.Proofs.Source.Grammar

namespace DocQuery

namespace Number

open Source (IsExponent takeWhile_run)

/-- Whether a text is a minus, or nothing. -/
def IsMinus (cs : List Char) : Prop :=
  cs = [] ∨ cs = ['-']

/-- Whether a text is a point with digits behind it, or nothing. -/
def IsFraction (cs : List Char) : Prop :=
  cs = [] ∨ ∃ digits, cs = '.' :: digits ∧ digits ≠ [] ∧ ∀ c ∈ digits, c.isDigit

/-- Whether a text is a decimal number without its sign. -/
def IsMagnitude (cs : List Char) : Prop :=
  ∃ whole fraction exponent, cs = whole ++ (fraction ++ exponent) ∧ (∀ c ∈ whole, c.isDigit) ∧
    IsFraction fraction ∧ IsExponent exponent

/-- Whether a text is a decimal number, of which every part may be missing. -/
def IsDecimal (cs : List Char) : Prop :=
  ∃ sign magnitude, cs = sign ++ magnitude ∧ IsMinus sign ∧ IsMagnitude magnitude

/-- Whether hexadecimal digits are announced at the start of a text. -/
def BeginsHexadecimal (cs : List Char) : Prop :=
  ∃ sign x more, IsMinus sign ∧ (x = 'x' ∨ x = 'X') ∧ cs = sign ++ '0' :: x :: more

variable {sign whole fraction exponent magnitude spelling before more rest cs : List Char}
  {x letter : Char}

/-! ### What is found is a number -/

theorem isFraction_leadingFraction (cs : List Char) : IsFraction (leadingFraction cs) := by
  unfold leadingFraction
  split
  · rename_i rest
    split
    · exact .inl rfl
    · rename_i hsome
      exact .inr ⟨_, rfl, hsome, fun c hc => List.mem_takeWhile_imp hc⟩
  · exact .inl rfl

theorem leadingSign_cases (cs : List Char) :
    leadingSign cs = [] ∨ leadingSign cs = ['+'] ∨ leadingSign cs = ['-'] := by
  rcases cs with _ | ⟨c, cs⟩
  · exact .inl rfl
  · by_cases hplus : c = '+'
    · exact .inr (.inl (by simp [leadingSign, hplus]))
    · by_cases hminus : c = '-'
      · exact .inr (.inr (by simp [leadingSign, hminus]))
      · exact .inl (by simp [leadingSign, hplus, hminus])

theorem isExponent_leadingExponent (cs : List Char) : IsExponent (leadingExponent cs) := by
  unfold leadingExponent
  split
  · exact .inl rfl
  · rename_i letter rest
    split
    · rename_i hletter
      simp only
      split
      · exact .inl rfl
      · rename_i hsome
        exact .inr ⟨letter, leadingSign rest, _, rfl, by simpa using hletter,
          leadingSign_cases rest, hsome, fun c hc => List.mem_takeWhile_imp hc⟩
    · exact .inl rfl

theorem isMagnitude_leadingDecimal (cs : List Char) : IsMagnitude (leadingDecimal cs) :=
  ⟨_, _, _, List.append_assoc .., fun _ hc => List.mem_takeWhile_imp hc,
    isFraction_leadingFraction _, isExponent_leadingExponent _⟩

/-! ### Nothing longer is one -/

theorem IsFraction.head (h : IsFraction fraction) : ∀ c ∈ fraction.head?, c = '.' := by
  rcases h with rfl | ⟨digits, rfl, -⟩
  · nofun
  · intro c hc
    exact (Option.some.inj hc).symm

theorem head_of_isExponent (h : IsExponent exponent) :
    ∀ c ∈ exponent.head?, c = 'e' ∨ c = 'E' := by
  rcases h with rfl | ⟨letter, sign, digits, rfl, hletter, -⟩
  · nofun
  · intro c hc
    obtain rfl : letter = c := Option.some.inj hc
    exact hletter

theorem isPrefix_takeWhile {digits : List Char} (h : ∀ c ∈ digits, c.isDigit) (rest : List Char) :
    digits <+: (digits ++ rest).takeWhile Char.isDigit := by
  rw [List.takeWhile_append_of_pos h]
  exact List.prefix_append ..

theorem isPrefix_leadingFraction (h : IsFraction fraction) (rest : List Char) :
    fraction <+: leadingFraction (fraction ++ rest) := by
  rcases h with rfl | ⟨digits, rfl, hsome, hdigits⟩
  · exact List.nil_prefix
  · have htake := isPrefix_takeWhile hdigits rest
    rw [List.cons_append, leadingFraction]
    split
    · rename_i hnone
      rw [hnone, List.prefix_nil] at htake
      exact absurd htake hsome
    · exact (List.prefix_cons_inj '.').2 htake

theorem isPrefix_leadingExponent (h : IsExponent exponent) (rest : List Char) :
    exponent <+: leadingExponent (exponent ++ rest) := by
  rcases h with rfl | ⟨letter, sign, digits, rfl, hletter, hsign, hsome, hdigits⟩
  · exact List.nil_prefix
  · have htake := isPrefix_takeWhile hdigits rest
    have hletter : (letter == 'e' || letter == 'E') = true := by simpa using hletter
    rw [List.cons_append, List.append_assoc, leadingExponent, if_pos hletter]
    simp only [Source.leadingSign_append hsign hsome hdigits, List.drop_left]
    split
    · rename_i hnone
      rw [hnone, List.prefix_nil] at htake
      exact absurd htake hsome
    · exact (List.prefix_cons_inj letter).2 ((List.prefix_append_right_inj sign).2 htake)

theorem leadingFraction_fraction_append (h : IsFraction fraction)
    (hrest : ∀ c ∈ rest.head?, c.isDigit = false ∧ c ≠ '.') :
    leadingFraction (fraction ++ rest) = fraction := by
  rcases h with rfl | ⟨digits, rfl, hsome, hdigits⟩
  · rw [List.nil_append]
    unfold leadingFraction
    split
    · exact absurd rfl (hrest '.' rfl).2
    · rfl
  · rw [List.cons_append, leadingFraction, takeWhile_run hdigits fun c hc => (hrest c hc).1]
    cases digits with
    | nil => exact absurd rfl hsome
    | cons d digits => rfl

/-- Digits that no further one follows are followed by the other parts. -/
theorem leadingDecimal_whole_append (hwhole : ∀ c ∈ whole, c.isDigit)
    (hrest : ∀ c ∈ rest.head?, c.isDigit = false) :
    leadingDecimal (whole ++ rest) = whole ++ (leadingFraction rest ++
      leadingExponent (rest.drop (leadingFraction rest).length)) := by
  have hdrop : (whole ++ rest).drop (whole.length + (leadingFraction rest).length) =
      rest.drop (leadingFraction rest).length := by
    rw [← List.drop_drop, List.drop_left]
  rw [leadingDecimal]
  simp only [takeWhile_run hwhole hrest, List.drop_left, hdrop, List.append_assoc]

/-- A decimal number at the start of a text is a beginning of what is found there. -/
theorem isPrefix_leadingDecimal (h : IsMagnitude magnitude) (rest : List Char) :
    magnitude <+: leadingDecimal (magnitude ++ rest) := by
  obtain ⟨whole, fraction, exponent, rfl, hwhole, hfraction, hexponent⟩ := h
  rw [List.append_assoc, List.append_assoc]
  by_cases hexp : exponent = []
  · subst hexp
    rw [List.append_nil, List.nil_append]
    by_cases hfrac : fraction = []
    · -- nothing but digits, of which more may follow
      subst hfrac
      rw [List.append_nil, List.nil_append, leadingDecimal, List.append_assoc]
      exact (isPrefix_takeWhile hwhole rest).trans (List.prefix_append ..)
    · have hhead : ∀ c ∈ (fraction ++ rest).head?, c.isDigit = false := by
        intro c hc
        rw [List.head?_append_of_ne_nil _ hfrac] at hc
        rw [hfraction.head c hc]
        rfl
      rw [leadingDecimal_whole_append hwhole hhead]
      refine (List.prefix_append_right_inj whole).2 ?_
      exact (isPrefix_leadingFraction hfraction rest).trans (List.prefix_append ..)
  · have hletter : ∀ c ∈ (exponent ++ rest).head?, c.isDigit = false ∧ c ≠ '.' := by
      intro c hc
      rw [List.head?_append_of_ne_nil _ hexp] at hc
      rcases head_of_isExponent hexponent c hc with rfl | rfl <;> decide
    have hhead : ∀ c ∈ (fraction ++ (exponent ++ rest)).head?, c.isDigit = false := by
      intro c hc
      rcases hfraction with rfl | ⟨digits, rfl, -⟩
      · exact (hletter c hc).1
      · obtain rfl : '.' = c := Option.some.inj hc
        rfl
    rw [leadingDecimal_whole_append hwhole hhead, leadingFraction_fraction_append hfraction hletter,
      List.drop_left]
    refine (List.prefix_append_right_inj whole).2 ((List.prefix_append_right_inj fraction).2 ?_)
    exact isPrefix_leadingExponent hexponent rest

/-! ### Signs and hexadecimal digits -/

theorem leadingMagnitude_eq (h : ∀ x more, cs = '0' :: x :: more → x ≠ 'x' ∧ x ≠ 'X') :
    leadingMagnitude cs = leadingDecimal cs := by
  unfold leadingMagnitude
  split
  · exact absurd rfl (h 'x' _ rfl).1
  · exact absurd rfl (h 'X' _ rfl).2
  · rfl

theorem leadingMagnitude_hexadecimal (hx : x = 'x' ∨ x = 'X') (more : List Char) :
    leadingMagnitude ('0' :: x :: more) = '0' :: x :: more.takeWhile Text.isHexDigit := by
  rcases hx with rfl | rfl
  · rfl
  · rfl

theorem leading_sign_append (hsign : IsMinus sign) (hcs : cs.head? ≠ some '-') :
    leading (sign ++ cs) = sign ++ leadingMagnitude cs := by
  rcases hsign with rfl | rfl
  · rw [List.nil_append, List.nil_append]
    unfold leading
    split
    · exact absurd rfl hcs
    · rfl
  · rfl

theorem not_hexadecimal_behind (hsign : IsMinus sign) (h : ¬ BeginsHexadecimal (sign ++ cs)) :
    ∀ x more, cs = '0' :: x :: more → x ≠ 'x' ∧ x ≠ 'X' := by
  rintro x more rfl
  exact ⟨fun hx => h ⟨sign, x, more, hsign, .inl hx, rfl⟩,
    fun hx => h ⟨sign, x, more, hsign, .inr hx, rfl⟩⟩

/-- A number without its sign begins with no sign. -/
theorem IsMagnitude.head (h : IsMagnitude magnitude) : magnitude.head? ≠ some '-' := by
  obtain ⟨whole, fraction, exponent, rfl, hwhole, hfraction, hexponent⟩ := h
  intro hhead
  rcases whole with _ | ⟨d, whole⟩
  · rcases hfraction with rfl | ⟨digits, rfl, -⟩
    · rcases head_of_isExponent hexponent '-' hhead with hletter | hletter
      · exact absurd hletter (by decide)
      · exact absurd hletter (by decide)
    · exact absurd (Option.some.inj hhead) (by decide)
  · obtain rfl : d = '-' := Option.some.inj hhead
    exact absurd (hwhole '-' List.mem_cons_self) (by decide)

/-- What is found where no hexadecimal digits are announced is a decimal number. -/
theorem isDecimal_leading (h : ¬ BeginsHexadecimal cs) : IsDecimal (leading cs) := by
  by_cases hminus : ∃ rest, cs = '-' :: rest
  · obtain ⟨rest, rfl⟩ := hminus
    have hplain := not_hexadecimal_behind (.inr rfl : IsMinus ['-']) h
    rw [leading, leadingMagnitude_eq hplain]
    exact ⟨['-'], leadingDecimal rest, rfl, .inr rfl, isMagnitude_leadingDecimal rest⟩
  · have hhead : cs.head? ≠ some '-' := fun hhead => hminus (List.head?_eq_some_iff.1 hhead)
    have hplain := not_hexadecimal_behind (.inl rfl : IsMinus []) h
    have hleading : leading cs = leadingMagnitude cs := leading_sign_append (.inl rfl) hhead
    rw [hleading, leadingMagnitude_eq hplain]
    exact ⟨[], leadingDecimal cs, rfl, .inl rfl, isMagnitude_leadingDecimal cs⟩

/-- Every decimal number there is a beginning of it. -/
theorem isPrefix_leading (h : ¬ BeginsHexadecimal cs) (hspelling : IsDecimal spelling)
    (hbegins : spelling <+: cs) : spelling <+: leading cs := by
  obtain ⟨rest, rfl⟩ := hbegins
  obtain ⟨sign, magnitude, rfl, hsign, hmagnitude⟩ := hspelling
  rw [List.append_assoc] at h ⊢
  have hplain := not_hexadecimal_behind hsign h
  have hfound := isPrefix_leadingDecimal hmagnitude rest
  rw [← leadingMagnitude_eq hplain] at hfound
  rcases hsign with rfl | rfl
  · rcases magnitude with _ | ⟨c, magnitude⟩
    · exact List.nil_prefix
    · have hhead : (c :: magnitude ++ rest).head? ≠ some '-' := hmagnitude.head
      have hleading :
          leading (c :: magnitude ++ rest) = leadingMagnitude (c :: magnitude ++ rest) :=
        leading_sign_append (.inl rfl) hhead
      rw [List.nil_append, List.nil_append, hleading]
      exact hfound
  · exact (List.prefix_cons_inj '-').2 hfound

/-- Where hexadecimal digits are announced, all of them are found. -/
theorem leading_hexadecimal (hsign : IsMinus sign) (hx : x = 'x' ∨ x = 'X') (more : List Char) :
    leading (sign ++ '0' :: x :: more) = sign ++ '0' :: x :: more.takeWhile Text.isHexDigit := by
  rw [leading_sign_append hsign (by simp), leadingMagnitude_hexadecimal hx]

/-! ### Points and letters -/

/-- A character that is not in the first part of a text is in the rest of it. -/
theorem exists_append_of_not_mem {as bs : List Char} (h : as ++ bs = before ++ x :: more)
    (hx : x ∉ as) : ∃ middle, bs = middle ++ x :: more := by
  rcases List.append_eq_append_iff.1 h with ⟨middle, -, rfl⟩ | ⟨middle, rfl, hmiddle⟩
  · exact ⟨middle, rfl⟩
  · rcases middle with _ | ⟨y, middle⟩
    · exact ⟨[], hmiddle.symm⟩
    · obtain rfl : x = y := (List.cons.inj hmiddle).1
      exact absurd (by simp) hx

theorem not_mem_of_isMinus (hsign : IsMinus sign) (hx : x ≠ '-') : x ∉ sign := by
  rcases hsign with rfl | rfl
  · simp
  · simpa using hx

theorem not_mem_of_digits (hwhole : ∀ c ∈ whole, c.isDigit) (hx : x.isDigit = false) : x ∉ whole :=
  fun hmem => Bool.false_ne_true (hx.symm.trans (hwhole x hmem))

/-- A point in a decimal number is followed by a digit. -/
theorem IsDecimal.digit_behind_point (h : IsDecimal (before ++ '.' :: more)) :
    ∃ d rest, more = d :: rest ∧ d.isDigit := by
  obtain ⟨sign, magnitude, heq, hsign, whole, fraction, exponent, rfl, hwhole, hfraction,
    hexponent⟩ := h
  obtain ⟨before, heq⟩ := exists_append_of_not_mem heq.symm (not_mem_of_isMinus hsign (by decide))
  obtain ⟨before, heq⟩ := exists_append_of_not_mem heq (not_mem_of_digits hwhole rfl)
  have hnot : ∀ before, exponent ≠ before ++ '.' :: more := by
    rintro before rfl
    have hmem : '.' ∈ before ++ '.' :: more := by simp
    rcases hexponent with hnil | ⟨letter, sign, digits, hcons, hletter, hsign, -, hdigits⟩
    · simp [hnil] at hmem
    · rw [hcons, List.mem_cons, List.mem_append] at hmem
      rcases hmem with rfl | hmem | hmem
      · revert hletter
        decide
      · rcases hsign with rfl | rfl | rfl <;> revert hmem <;> decide
      · exact not_mem_of_digits hdigits rfl hmem
  rcases hfraction with rfl | ⟨digits, rfl, hsome, hdigits⟩
  · exact absurd heq (hnot before)
  · rcases before with _ | ⟨b, before⟩
    · obtain ⟨d, digits, rfl⟩ := List.exists_cons_of_ne_nil hsome
      exact ⟨d, digits ++ exponent, (List.cons.inj heq).2.symm, hdigits d List.mem_cons_self⟩
    · -- the point is behind the digits of the fraction
      obtain ⟨middle, heq⟩ :=
        exists_append_of_not_mem (List.cons.inj heq).2 (not_mem_of_digits hdigits rfl)
      exact absurd heq (hnot middle)

/-- An `e` in a decimal number begins its exponent. -/
theorem IsDecimal.exponent_at_letter (h : IsDecimal (before ++ letter :: more))
    (hletter : letter = 'e' ∨ letter = 'E') : IsExponent (letter :: more) := by
  have hdigit : letter.isDigit = false := by rcases hletter with rfl | rfl <;> rfl
  have hminus : letter ≠ '-' := by rcases hletter with rfl | rfl <;> decide
  have hplus : letter ≠ '+' := by rcases hletter with rfl | rfl <;> decide
  have hpoint : letter ≠ '.' := by rcases hletter with rfl | rfl <;> decide
  obtain ⟨sign, magnitude, heq, hsign, whole, fraction, exponent, rfl, hwhole, hfraction,
    hexponent⟩ := h
  have hfractionNot : letter ∉ fraction := by
    rcases hfraction with rfl | ⟨digits, rfl, -, hdigits⟩
    · simp
    · rw [List.mem_cons, not_or]
      exact ⟨hpoint, not_mem_of_digits hdigits hdigit⟩
  obtain ⟨before, heq⟩ := exists_append_of_not_mem heq.symm (not_mem_of_isMinus hsign hminus)
  obtain ⟨before, heq⟩ := exists_append_of_not_mem heq (not_mem_of_digits hwhole hdigit)
  obtain ⟨before, rfl⟩ := exists_append_of_not_mem heq hfractionNot
  rcases before with _ | ⟨b, before⟩
  · exact hexponent
  · -- no such letter is behind the first one
    rcases hexponent with hnil | ⟨_, sign, digits, hcons, -, hsign, -, hdigits⟩
    · simp at hnil
    · have hmem : letter ∈ sign ++ digits := by
        rw [← (List.cons.inj hcons).2]
        simp
      rcases List.mem_append.1 hmem with hmem | hmem
      · rcases hsign with rfl | rfl | rfl
        · simp at hmem
        · exact absurd (List.mem_singleton.1 hmem) hplus
        · exact absurd (List.mem_singleton.1 hmem) hminus
      · exact absurd hmem (not_mem_of_digits hdigits hdigit)

/-- A beginning of a text ends before a character of it, or that character is in it. -/
theorem exists_passed (h : spelling <+: before ++ x :: more) (hnot : ¬ spelling <+: before) :
    ∃ passed, spelling = before ++ x :: passed ∧ passed <+: more := by
  obtain ⟨rest, hrest⟩ := h
  rcases List.append_eq_append_iff.1 hrest with ⟨middle, rfl, -⟩ | ⟨middle, rfl, hmiddle⟩
  · exact absurd (List.prefix_append ..) hnot
  · rcases middle with _ | ⟨y, middle⟩
    · exact absurd (by simp) hnot
    · obtain ⟨rfl, rfl⟩ := List.cons.inj hmiddle
      exact ⟨middle, rfl, List.prefix_append ..⟩

/-- A point that no digit follows is not passed. -/
theorem isPrefix_of_point (hcs : cs = before ++ '.' :: more)
    (hmore : ∀ d ∈ more.head?, d.isDigit = false) : leading cs <+: before := by
  by_contra hnot
  have hbegins := Source.leading_isPrefix cs
  rw [hcs] at hbegins hnot
  obtain ⟨passed, hpassed, hprefix⟩ := exists_passed hbegins hnot
  rw [← hcs] at hpassed
  by_cases hhex : BeginsHexadecimal cs
  · -- no point is among hexadecimal digits
    obtain ⟨sign, x, digits, hsign, hx, rfl⟩ := hhex
    rw [leading_hexadecimal hsign hx] at hpassed
    obtain ⟨middle, heq⟩ :=
      exists_append_of_not_mem hpassed (not_mem_of_isMinus hsign (by decide))
    have hmem : '.' ∈ '0' :: x :: digits.takeWhile Text.isHexDigit := by
      rw [heq]
      simp
    rw [List.mem_cons, List.mem_cons] at hmem
    rcases hmem with hzero | rfl | hmem
    · exact absurd hzero (by decide)
    · revert hx
      decide
    · exact absurd (List.mem_takeWhile_imp hmem) (by decide)
  · have hdecimal := isDecimal_leading hhex
    rw [hpassed] at hdecimal
    obtain ⟨d, rest, rfl, hd⟩ := hdecimal.digit_behind_point
    obtain ⟨behind, rfl⟩ := hprefix
    exact Bool.false_ne_true ((hmore d rfl).symm.trans hd)

/-- An `e` that begins no exponent is not passed, unless it is a hexadecimal digit. -/
theorem isPrefix_of_letter (hhex : ¬ BeginsHexadecimal cs) (hletter : letter = 'e' ∨ letter = 'E')
    (hcs : cs = before ++ letter :: more)
    (hmore : ∀ exponent, IsExponent exponent → exponent <+: letter :: more → exponent = []) :
    leading cs <+: before := by
  by_contra hnot
  have hbegins := Source.leading_isPrefix cs
  rw [hcs] at hbegins hnot
  obtain ⟨passed, hpassed, hprefix⟩ := exists_passed hbegins hnot
  have hdecimal := isDecimal_leading hhex
  rw [hcs, hpassed] at hdecimal
  have hnone :=
    hmore _ (hdecimal.exponent_at_letter hletter) ((List.prefix_cons_inj letter).2 hprefix)
  exact List.cons_ne_nil _ _ hnone

end Number

open Number in
/-- What is read as a number is the longest beginning of the text that is spelled like one: all
hexadecimal digits where these are announced, and a decimal number everywhere else. The cursor stops
right behind it. That fails exactly if nothing was found, or only a minus. A point that no digit
follows and an `e` that begins no exponent are left in the text. -/
theorem Cursor.readNumber_longest (c : Cursor) :
    ∃ spelling, c.rest = spelling ++ c.readNumber.2.rest ∧
      c.readNumber.2.position = c.position.after spelling ∧
      c.readNumber.1 = (if spelling = [] ∨ spelling = ['-'] then .error (c.fault .numberExpected)
        else .ok (String.ofList spelling)) ∧
      (∀ sign x more, IsMinus sign → x = 'x' ∨ x = 'X' → c.rest = sign ++ '0' :: x :: more →
        spelling = sign ++ '0' :: x :: more.takeWhile Text.isHexDigit) ∧
      (¬ BeginsHexadecimal c.rest → IsDecimal spelling ∧
        ∀ other, IsDecimal other → other <+: c.rest → other <+: spelling) ∧
      (∀ before more, c.rest = before ++ '.' :: more →
        (∀ d ∈ more.head?, d.isDigit = false) → spelling <+: before) ∧
      (¬ BeginsHexadecimal c.rest → ∀ before letter more, letter = 'e' ∨ letter = 'E' →
        c.rest = before ++ letter :: more →
          (∀ exponent, Source.IsExponent exponent → exponent <+: letter :: more → exponent = []) →
            spelling <+: before) := by
  have hnext : c.readNumber.2 = c.pass (leading c.rest).length := by
    rw [readNumber]
    split <;> rfl
  have hbegins := Source.leading_isPrefix c.rest
  rw [hnext]
  refine ⟨leading c.rest, (List.prefix_iff_eq_append.1 hbegins).symm,
    congrArg c.position.after (List.prefix_iff_eq_take.1 hbegins).symm, ?_, ?_, ?_, ?_, ?_⟩
  · rw [readNumber]
    simp only [Bool.or_eq_true, decide_eq_true_eq]
    split <;> rfl
  · intro sign x more hsign hx heq
    rw [heq, leading_hexadecimal hsign hx]
  · exact fun hhex => ⟨isDecimal_leading hhex, fun _ => isPrefix_leading hhex⟩
  · exact fun _ _ => isPrefix_of_point
  · exact fun hhex _ _ _ hletter => isPrefix_of_letter hhex hletter

open Number in
/-- A number with a fraction, and a letter behind it that begins no exponent. -/
theorem Cursor.readNumber_longest_unfinished :
    ¬ BeginsHexadecimal "1.5e.x".toList ∧
      (∀ exponent, Source.IsExponent exponent → exponent <+: ['e', '.', 'x'] → exponent = []) ∧
      ∃ spelling, "1.5e.x".toList = spelling ++ (ofText "1.5e.x" .start).readNumber.2.rest ∧
        IsDecimal spelling ∧
        (∀ other, IsDecimal other → other <+: "1.5e.x".toList → other <+: spelling) ∧
        spelling <+: ['1', '.', '5'] := by
  have hhex : ¬ BeginsHexadecimal "1.5e.x".toList := by
    rintro ⟨sign, x, more, rfl | rfl, -, heq⟩
    · exact absurd (List.cons.inj heq).1 (by decide)
    · exact absurd (List.cons.inj heq).1 (by decide)
  have hnone : ∀ exponent, Source.IsExponent exponent → exponent <+: ['e', '.', 'x'] →
      exponent = [] := by
    rintro _ (rfl | ⟨letter, sign, digits, rfl, -, hsign, hsome, hdigits⟩) hbegins
    · rfl
    · obtain ⟨-, hbegins⟩ := List.cons_prefix_cons.1 hbegins
      obtain ⟨d, digits, rfl⟩ := List.exists_cons_of_ne_nil hsome
      have hd := hdigits d List.mem_cons_self
      rcases hsign with rfl | rfl | rfl
      · obtain ⟨rfl, -⟩ := List.cons_prefix_cons.1 hbegins
        exact absurd hd (by decide)
      · exact absurd (List.cons_prefix_cons.1 hbegins).1 (by decide)
      · exact absurd (List.cons_prefix_cons.1 hbegins).1 (by decide)
  obtain ⟨spelling, hrest, -, -, -, hlongest, -, hletter⟩ :=
    readNumber_longest (ofText "1.5e.x" .start)
  obtain ⟨hdecimal, hall⟩ := hlongest hhex
  exact ⟨hhex, hnone, spelling, hrest, hdecimal, hall,
    hletter hhex ['1', '.', '5'] 'e' ['.', 'x'] (.inl rfl) rfl hnone⟩

end DocQuery
