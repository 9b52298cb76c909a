/-
How the characters of a string between quotes are written.

* `Text.IsFourDigits` — the four hexadecimal digits of a code, in upper or lower case;
* `Text.IsWriting` — the ways of writing a character: as it is, by a short escape, by the digits of
  its code, or by those of its two surrogates;
* `Text.IsForcedPair` — two escapes that are taken for a character although they are no pair;
* `Text.nextPiece_eq_char_iff` — writings and forced pairs are what the reader takes for characters;
* `Cursor.readQuoted_eq_ok_iff` — so a string is read exactly if its characters are written so, up
  to the first quote that is not part of one of them;
* `Cursor.readQuoted_written` — a text is read again in whatever ways its characters were written,
  with the columns at which they were.

Design notes: what is read is described by the list of its writings, one for each character. Where
the first writings end is where the next one begins, so every column is that of a beginning of the
string. No writing holds a line feed, which is why a column is all that a place needs.
-/
import DocQuery.Proofs.Expr.Cutting
import Mathlib.Data.List.Forall2
import Mathlib.Data.List.TakeWhile

namespace DocQuery

namespace Text

/-- The letters of the short escapes, and the characters that they stand for. -/
def shortEscapes : List (Char × Char) :=
  [('n', '\n'), ('t', '\t'), ('r', '\r'), ('b', '\x08'), ('f', '\x0c'), ('/', '/'), ('\\', '\\'),
    ('"', '"'), ('\'', '\'')]

/-- Whether `digits` are the four hexadecimal digits of `code`, each in upper or lower case. -/
def IsFourDigits (code : Nat) (digits : List Char) : Prop :=
  code < 0x10000 ∧ digits.map Char.toLower =
    [code / 0x1000, code / 0x100 % 0x10, code / 0x10 % 0x10, code % 0x10].map Json.hexDigit

/-- Whether a code is that of the first half of a pair of surrogates. -/
def IsHighSurrogate (code : Nat) : Prop := 0xD800 ≤ code ∧ code < 0xDC00

/-- Whether a code is that of the second half of a pair of surrogates. -/
def IsLowSurrogate (code : Nat) : Prop := 0xDC00 ≤ code ∧ code < 0xE000

/-- The escape with these digits. -/
def codeEscape (digits : List Char) : List Char := '\\' :: 'u' :: digits

/-- The ways of writing the character `c` in a string between the quotes `quote`. -/
inductive IsWriting (quote c : Char) : List Char → Prop
  /-- as it is -/
  | raw : c ≠ quote → c ≠ '\\' → c ≠ '\n' → IsWriting quote c [c]
  /-- by the letter of its escape -/
  | short {letter : Char} : (letter, c) ∈ shortEscapes → IsWriting quote c ['\\', letter]
  /-- by the digits of its code -/
  | code {digits : List Char} : IsFourDigits c.toNat digits →
    IsWriting quote c (codeEscape digits)
  /-- by the digits of its surrogates -/
  | pair {high low : Nat} {first second : List Char} : IsHighSurrogate high → IsLowSurrogate low →
    IsFourDigits high first → IsFourDigits low second →
    c.toNat = 0x10000 + (high - 0xD800) * 0x400 + (low - 0xDC00) →
      IsWriting quote c (codeEscape first ++ codeEscape second)

/-- Whether `cs` are the escape of the first half of a pair and another escape that is not of a
second half, of which the last ten bits are taken to make the character `c`. -/
inductive IsForcedPair (c : Char) : List Char → Prop
  | mk {high other : Nat} {first second : List Char} : IsHighSurrogate high →
    ¬ IsLowSurrogate other → IsFourDigits high first → IsFourDigits other second →
    c.toNat = 0x10000 + (high - 0xD800) * 0x400 + other % 0x400 →
      IsForcedPair c (codeEscape first ++ codeEscape second)

/-- What stands for the character `c` in a string between the quotes `quote`. -/
def StandsFor (quote c : Char) (cs : List Char) : Prop :=
  IsWriting quote c cs ∨ IsForcedPair c cs

/-! ### Digits -/

/-- A hexadecimal digit is one of those that are written, in upper or lower case. -/
theorem hexDigitValue?_eq_some_iff {d : Char} {v : Nat} :
    hexDigitValue? d = some v ↔ v < 16 ∧ d.toLower = Json.hexDigit v := by
  have hascii : ∀ n < 128, ∀ v < 16,
      (hexDigitValue? (Char.ofNat n) = some v ↔ (Char.ofNat n).toLower = Json.hexDigit v) := by
    decide +kernel
  have hvalue : ∀ {w}, hexDigitValue? d = some w → w < 16 ∧ d.toNat < 128 := by
    intro w hw
    unfold hexDigitValue? at hw
    simp only [Bool.and_eq_true, decide_eq_true_eq] at hw
    split_ifs at hw <;> obtain rfl := Option.some.inj hw <;> omega
  constructor
  · intro h
    obtain ⟨hv, hd⟩ := hvalue h
    have hboth := hascii d.toNat hd v hv
    rw [Char.ofNat_toNat] at hboth
    exact ⟨hv, hboth.1 h⟩
  · rintro ⟨hv, hlower⟩
    have hd : d.toNat < 128 := by
      -- lower case is another character for letters of ASCII only
      have hdigit : ∀ v < 16, (Json.hexDigit v).toNat < 128 := by decide
      by_contra hlarge
      have hsame : d.toLower = d := by
        refine dif_neg ?_
        rintro ⟨-, hle⟩
        have : d.toNat ≤ 'Z'.toNat := hle
        have : 'Z'.toNat = 90 := rfl
        omega
      rw [hsame] at hlower
      exact hlarge (hlower ▸ hdigit v hv)
    have hboth := hascii d.toNat hd v hv
    rw [Char.ofNat_toNat] at hboth
    exact hboth.2 hlower

namespace IsFourDigits

variable {code other : Nat} {digits : List Char}

theorem length_eq (h : IsFourDigits code digits) : digits.length = 4 := by
  have hlength := congrArg List.length h.2
  rwa [List.length_map] at hlength

/-- The digits and their values. -/
theorem exists_values (h : IsFourDigits code digits) :
    ∃ a b c d, digits = [a, b, c, d] ∧ hexDigitValue? a = some (code / 0x1000) ∧
      hexDigitValue? b = some (code / 0x100 % 0x10) ∧
      hexDigitValue? c = some (code / 0x10 % 0x10) ∧ hexDigitValue? d = some (code % 0x10) := by
  obtain ⟨hcode, hlower⟩ := h
  obtain ⟨a, b, c, d, rfl⟩ : ∃ a b c d, digits = [a, b, c, d] :=
    List.length_eq_four.1 (length_eq ⟨hcode, hlower⟩)
  simp only [List.map_cons, List.map_nil, List.cons.injEq, and_true] at hlower
  obtain ⟨ha, hb, hc, hd⟩ := hlower
  exact ⟨a, b, c, d, rfl, hexDigitValue?_eq_some_iff.2 ⟨by omega, ha⟩,
    hexDigitValue?_eq_some_iff.2 ⟨by omega, hb⟩, hexDigitValue?_eq_some_iff.2 ⟨by omega, hc⟩,
    hexDigitValue?_eq_some_iff.2 ⟨by omega, hd⟩⟩

theorem isHexDigit (h : IsFourDigits code digits) : ∀ d ∈ digits, isHexDigit d := by
  obtain ⟨a, b, c, d, rfl, ha, hb, hc, hd⟩ := h.exists_values
  simp [Text.isHexDigit, ha, hb, hc, hd]

/-- Digits are those of one code. -/
theorem code_eq (h : IsFourDigits code digits) (h' : IsFourDigits other digits) :
    code = other := by
  obtain ⟨a, b, c, d, rfl, ha, hb, hc, hd⟩ := h.exists_values
  obtain ⟨a', b', c', d', heq, ha', hb', hc', hd'⟩ := h'.exists_values
  obtain ⟨rfl, rfl, rfl, rfl⟩ : a = a' ∧ b = b' ∧ c = c' ∧ d = d' := by simpa using heq
  have h1 := Option.some.inj (ha.symm.trans ha')
  have h2 := Option.some.inj (hb.symm.trans hb')
  have h3 := Option.some.inj (hc.symm.trans hc')
  have h4 := Option.some.inj (hd.symm.trans hd')
  omega

end IsFourDigits

/-- A code is read exactly where its digits stand. -/
theorem readFourDigits_eq_ok_iff {cs : List Char} {code : Nat} :
    readFourDigits cs = .ok code ↔
      ∃ digits rest, cs = digits ++ rest ∧ IsFourDigits code digits := by
  constructor
  · intro h
    obtain ⟨hlength, -⟩ := readFourDigits_stable h
    obtain ⟨a, b, c, d, htake⟩ : ∃ a b c d, cs.take 4 = [a, b, c, d] :=
      List.length_eq_four.1 (by rw [List.length_take]; omega)
    refine ⟨cs.take 4, cs.drop 4, (List.take_append_drop 4 cs).symm, ?_⟩
    rw [readFourDigits, htake] at h
    rw [htake]
    split at h
    · rename_i hall
      have hrun : [a, b, c, d].takeWhile Text.isHexDigit = [a, b, c, d] :=
        (List.takeWhile_prefix _).eq_of_length hall
      have hdigits := List.takeWhile_eq_self_iff.1 hrun
      have hvalue : ∀ x ∈ [a, b, c, d], ∃ v, hexDigitValue? x = some v := fun x hx =>
        Option.isSome_iff_exists.1 (hdigits x hx)
      obtain ⟨va, ha⟩ := hvalue a (by simp)
      obtain ⟨vb, hb⟩ := hvalue b (by simp)
      obtain ⟨vc, hc⟩ := hvalue c (by simp)
      obtain ⟨vd, hd⟩ := hvalue d (by simp)
      have hcode := Except.ok.inj h
      rw [hrun] at hcode
      simp only [List.foldl_cons, List.foldl_nil, ha, hb, hc, hd, Option.getD_some] at hcode
      obtain ⟨hva, ha⟩ := hexDigitValue?_eq_some_iff.1 ha
      obtain ⟨hvb, hb⟩ := hexDigitValue?_eq_some_iff.1 hb
      obtain ⟨hvc, hc⟩ := hexDigitValue?_eq_some_iff.1 hc
      obtain ⟨hvd, hd⟩ := hexDigitValue?_eq_some_iff.1 hd
      have h1 : code / 0x1000 = va := by omega
      have h2 : code / 0x100 % 0x10 = vb := by omega
      have h3 : code / 0x10 % 0x10 = vc := by omega
      have h4 : code % 0x10 = vd := by omega
      refine ⟨by omega, ?_⟩
      simp only [List.map_cons, List.map_nil, ha, hb, hc, hd, h1, h2, h3, h4]
    · cases h
  · rintro ⟨digits, rest, rfl, h⟩
    obtain ⟨a, b, c, d, rfl, ha, hb, hc, hd⟩ := h.exists_values
    have hrun : [a, b, c, d].takeWhile Text.isHexDigit = [a, b, c, d] :=
      List.takeWhile_eq_self_iff.2 h.isHexDigit
    have htake : ([a, b, c, d] ++ rest).take 4 = [a, b, c, d] := rfl
    rw [readFourDigits, htake, hrun]
    simp only [List.length_cons, List.length_nil, if_true, List.foldl_cons, List.foldl_nil, ha, hb,
      hc, hd, Option.getD_some]
    congr 1
    have := h.1
    omega

/-! ### Pieces -/

section Pieces

variable {quote c : Char} {cs w : List Char} {width : Nat}

theorem mem_shortEscapes_iff {letter : Char} :
    (letter, c) ∈ shortEscapes ↔ simpleEscape? letter = some c := by
  constructor
  · intro h
    simp only [shortEscapes, List.mem_cons, Prod.mk.injEq, List.not_mem_nil, or_false] at h
    rcases h with ⟨rfl, rfl⟩ | ⟨rfl, rfl⟩ | ⟨rfl, rfl⟩ | ⟨rfl, rfl⟩ | ⟨rfl, rfl⟩ | ⟨rfl, rfl⟩ |
      ⟨rfl, rfl⟩ | ⟨rfl, rfl⟩ | ⟨rfl, rfl⟩ <;> rfl
  · intro h
    unfold simpleEscape? at h
    split at h
    iterate 9
      · obtain rfl := Option.some.inj h
        decide
    · cases h

/-- The letter `u` begins no short escape. -/
theorem not_mem_shortEscapes_u : ('u', c) ∉ shortEscapes := by
  rw [mem_shortEscapes_iff]
  nofun

theorem IsHighSurrogate.not_low {code : Nat} (h : IsHighSurrogate code) :
    ¬ IsLowSurrogate code := by
  unfold IsHighSurrogate IsLowSurrogate at *
  omega

/-- No character has the code of a surrogate. -/
theorem toNat_not_surrogate (c : Char) : ¬ IsHighSurrogate c.toNat ∧ ¬ IsLowSurrogate c.toNat := by
  have hvalid : c.toNat.isValidChar := c.valid
  unfold Nat.isValidChar at hvalid
  unfold IsHighSurrogate IsLowSurrogate
  omega

theorem toNat_ofNat_of_isValidChar {n : Nat} (h : n.isValidChar) : (Char.ofNat n).toNat = n := by
  rw [Char.ofNat, dif_pos h]
  rfl

theorem toNat_surrogatePair {high other : Nat} (hhigh : IsHighSurrogate high) :
    (surrogatePair high other).toNat = 0x10000 + (high - 0xD800) * 0x400 + other % 0x400 := by
  refine toNat_ofNat_of_isValidChar (.inr ?_)
  unfold IsHighSurrogate at hhigh
  omega

/-- A pair of escapes is one of surrogates, or it is forced. -/
theorem standsFor_pair {high other : Nat} {first second : List Char}
    (hhigh : IsHighSurrogate high) (hfirst : IsFourDigits high first)
    (hsecond : IsFourDigits other second)
    (hc : c.toNat = 0x10000 + (high - 0xD800) * 0x400 + other % 0x400) :
    StandsFor quote c (codeEscape first ++ codeEscape second) := by
  by_cases hlow : IsLowSurrogate other
  · refine .inl (.pair hhigh hlow hfirst hsecond ?_)
    unfold IsLowSurrogate at hlow
    omega
  · exact .inr (.mk hhigh hlow hfirst hsecond hc)

/-- The ways in which a character can stand, with both sorts of pairs in one. -/
theorem StandsFor.cases_pair {motive : (w : List Char) → StandsFor quote c w → Prop}
    (raw : ∀ (hclose : c ≠ quote) (hbackslash : c ≠ '\\') (hline : c ≠ '\n'),
      motive [c] (.inl (.raw hclose hbackslash hline)))
    (short : ∀ {letter} (hletter : (letter, c) ∈ shortEscapes),
      motive ['\\', letter] (.inl (.short hletter)))
    (code : ∀ {digits} (hdigits : IsFourDigits c.toNat digits),
      motive (codeEscape digits) (.inl (.code hdigits)))
    (pair : ∀ {high other first second} (hhigh : IsHighSurrogate high)
      (hfirst : IsFourDigits high first) (hsecond : IsFourDigits other second)
      (hc : c.toNat = 0x10000 + (high - 0xD800) * 0x400 + other % 0x400),
      motive (codeEscape first ++ codeEscape second) (standsFor_pair hhigh hfirst hsecond hc))
    {w : List Char} (h : StandsFor quote c w) : motive w h := by
  rcases h with h | h
  · cases h with
    | raw hclose hbackslash hline => exact raw hclose hbackslash hline
    | short hletter => exact short hletter
    | code hdigits => exact code hdigits
    | pair hhigh hlow hfirst hsecond hc =>
      refine pair hhigh hfirst hsecond (hc.trans ?_)
      unfold IsLowSurrogate at hlow
      omega
  · cases h with
    | mk hhigh hother hfirst hsecond hc => exact pair hhigh hfirst hsecond hc

/-- What is taken for a character behind a backslash and a `u`. -/
theorem standsFor_of_unicodePiece (h : unicodePiece cs = .char c width) :
    ∃ w rest, '\\' :: 'u' :: cs = w ++ rest ∧ width = w.length ∧ StandsFor quote c w := by
  rw [unicodePiece] at h
  split at h
  · cases h
  · rename_i code hcode
    obtain ⟨digits, rest, rfl, hdigits⟩ := readFourDigits_eq_ok_iff.1 hcode
    have hlength := hdigits.length_eq
    split at h
    · rename_i hhigh
      have hhigh : IsHighSurrogate code := by simpa [IsHighSurrogate] using hhigh
      rw [List.drop_left' hlength] at h
      split at h
      · rename_i behind
        split at h
        · cases h
        · rename_i low hlow
          obtain ⟨second, tail, rfl, hsecond⟩ := readFourDigits_eq_ok_iff.1 hlow
          obtain ⟨rfl, rfl⟩ := Piece.char.inj h
          refine ⟨codeEscape digits ++ codeEscape second, tail, by simp [codeEscape], ?_,
            standsFor_pair hhigh hdigits hsecond (toNat_surrogatePair hhigh)⟩
          simp [codeEscape, hlength, hsecond.length_eq]
      · cases h
    · split at h
      · rename_i hvalid
        obtain ⟨rfl, rfl⟩ := Piece.char.inj h
        rw [← toNat_ofNat_of_isValidChar hvalid] at hdigits
        exact ⟨codeEscape digits, rest, rfl, by simp [codeEscape, hlength], .inl (.code hdigits)⟩
      · cases h

theorem unicodePiece_code {digits : List Char} (h : IsFourDigits c.toNat digits)
    (rest : List Char) : unicodePiece (digits ++ rest) = .char c 6 := by
  have hsurrogate := (toNat_not_surrogate c).1
  have hvalid : c.toNat.isValidChar := c.valid
  rw [unicodePiece, readFourDigits_eq_ok_iff.2 ⟨digits, rest, rfl, h⟩]
  simp only
  rw [if_neg (by simpa [IsHighSurrogate] using hsurrogate), if_pos hvalid, Char.ofNat_toNat]

theorem unicodePiece_pair {high other : Nat} {first second : List Char}
    (hhigh : IsHighSurrogate high) (hfirst : IsFourDigits high first)
    (hsecond : IsFourDigits other second) (rest : List Char) :
    unicodePiece (first ++ (codeEscape second ++ rest)) =
      .char (surrogatePair high other) 12 := by
  rw [unicodePiece, readFourDigits_eq_ok_iff.2 ⟨first, _, rfl, hfirst⟩]
  simp only
  rw [if_pos (by simpa [IsHighSurrogate] using hhigh), List.drop_left' hfirst.length_eq]
  simp only [codeEscape, List.cons_append,
    readFourDigits_eq_ok_iff.2 ⟨second, rest, rfl, hsecond⟩]

/-- What the reader takes for a character is what stands for it. -/
theorem nextPiece_eq_char_iff (hquote : quote = '\'' ∨ quote = '"') :
    nextPiece quote cs = .char c width ↔
      ∃ w rest, cs = w ++ rest ∧ width = w.length ∧ StandsFor quote c w := by
  have hbackslash : '\\' ≠ quote := by rcases hquote with rfl | rfl <;> decide
  have hescape : ∀ rest, nextPiece quote ('\\' :: rest) = escapePiece rest := fun rest => by
    rw [nextPiece, if_neg (by decide), if_neg hbackslash, if_pos rfl]
  constructor
  · intro h
    rcases cs with _ | ⟨d, cs⟩
    · cases h
    by_cases hd : d = '\\'
    · subst hd
      rw [hescape] at h
      rcases cs with _ | ⟨letter, cs⟩
      · cases h
      by_cases hu : letter = 'u'
      · subst hu
        exact standsFor_of_unicodePiece h
      · rw [escapePiece.eq_3 letter cs hu] at h
        split at h
        · rename_i meaning hmeaning
          obtain ⟨rfl, rfl⟩ := Piece.char.inj h
          exact ⟨['\\', letter], cs, rfl, rfl, .inl (.short (mem_shortEscapes_iff.2 hmeaning))⟩
        · cases h
    · rw [nextPiece] at h
      split_ifs at h with hline hclose
      obtain ⟨rfl, rfl⟩ := Piece.char.inj h
      exact ⟨[d], cs, rfl, rfl, .inl (.raw hclose hd hline)⟩
  · rintro ⟨w, rest, rfl, rfl, hw⟩
    cases hw using StandsFor.cases_pair with
    | raw hclose hd hline =>
      show nextPiece quote (c :: rest) = _
      rw [nextPiece, if_neg hline, if_neg hclose, if_neg hd]
      rfl
    | @short letter hletter =>
      have hu : letter ≠ 'u' := by
        rintro rfl
        exact not_mem_shortEscapes_u hletter
      show nextPiece quote ('\\' :: letter :: rest) = _
      rw [hescape, escapePiece.eq_3 letter rest hu, mem_shortEscapes_iff.1 hletter]
      rfl
    | @code digits hdigits =>
      show nextPiece quote ('\\' :: 'u' :: (digits ++ rest)) = _
      rw [hescape, escapePiece, unicodePiece_code hdigits]
      simp [codeEscape, hdigits.length_eq]
    | @pair high other first second hhigh hfirst hsecond hc =>
      have hchar : surrogatePair high other = c :=
        Char.toNat_inj.1 ((toNat_surrogatePair hhigh).trans hc.symm)
      rw [List.append_assoc]
      show nextPiece quote ('\\' :: 'u' :: (first ++ (codeEscape second ++ rest))) = _
      rw [hescape, escapePiece, unicodePiece_pair hhigh hfirst hsecond, hchar]
      simp [codeEscape, hfirst.length_eq, hsecond.length_eq]

/-- What stands for a character takes one at least, and no line feed. -/
theorem StandsFor.ne_nil (h : StandsFor quote c w) : w ≠ [] := by
  rcases h with h | h <;> cases h <;> nofun

theorem line_feed_not_mem_codeEscape {code : Nat} {digits : List Char}
    (h : IsFourDigits code digits) : '\n' ∉ codeEscape digits := by
  intro hmem
  simp only [codeEscape, List.mem_cons] at hmem
  rcases hmem with hmem | hmem | hmem
  · exact absurd hmem (by decide)
  · exact absurd hmem (by decide)
  · exact absurd (h.isHexDigit _ hmem) (by decide)

theorem StandsFor.line_feed_not_mem (h : StandsFor quote c w) : '\n' ∉ w := by
  cases h using StandsFor.cases_pair with
  | raw _ _ hline => simpa using hline.symm
  | short hletter =>
    have hletters : ∀ e ∈ shortEscapes, e.1 ≠ '\n' := by decide
    have hline := hletters _ hletter
    simpa using hline.symm
  | code hdigits => exact line_feed_not_mem_codeEscape hdigits
  | pair _ hfirst hsecond _ =>
    intro hmem
    rcases List.mem_append.1 hmem with hmem | hmem
    · exact line_feed_not_mem_codeEscape hfirst hmem
    · exact line_feed_not_mem_codeEscape hsecond hmem

end Pieces

/-! ### Strings -/

/-- How many characters stand before each of the writings, and before what is behind the last. -/
def starts (writings : List (List Char)) : List Nat :=
  (List.range (writings.length + 1)).map fun k => (writings.take k).flatten.length

section Strings

variable {quote : Char} {cs text : List Char} {q : Quoted} {w : List Char}
  {writings : List (List Char)}

@[simp] theorem starts_nil : starts [] = [0] := rfl

@[simp] theorem starts_cons :
    starts (w :: writings) = 0 :: (starts writings).map (w.length + ·) := by
  rw [starts, List.length_cons, List.range_succ_eq_map]
  simp [starts, List.map_map, Function.comp_def]

theorem length_starts : (starts writings).length = writings.length + 1 := by
  simp [starts]

theorem getElem?_starts {k : Nat} (h : k ≤ writings.length) :
    (starts writings)[k]? = some (writings.take k).flatten.length := by
  simp [starts, Nat.lt_succ_of_le h]

theorem pairwise_starts (h : ∀ w ∈ writings, w ≠ []) : (starts writings).Pairwise (· < ·) := by
  induction writings with
  | nil => simp
  | cons w writings ih =>
    have hw := List.length_pos_of_ne_nil (h w List.mem_cons_self)
    rw [starts_cons, List.pairwise_cons, List.pairwise_map]
    refine ⟨fun n hn => ?_, (ih fun x hx => h x (List.mem_cons_of_mem _ hx)).imp (by omega)⟩
    obtain ⟨m, -, rfl⟩ := List.mem_map.1 hn
    omega

theorem nextPiece_eq_close_iff (hquote : quote = '\'' ∨ quote = '"') :
    nextPiece quote cs = .close ↔ ∃ rest, cs = quote :: rest := by
  constructor
  · intro h
    obtain ⟨rest, rfl, -⟩ := eq_cons_of_nextPiece_close h
    exact ⟨rest, rfl⟩
  · rintro ⟨rest, rfl⟩
    have hline : quote ≠ '\n' := by rcases hquote with rfl | rfl <;> decide
    rw [nextPiece, if_neg hline, if_pos rfl]

/-- Every writing is that of some character. -/
theorem exists_standsFor (h : List.Forall₂ (StandsFor quote) text writings)
    (hw : w ∈ writings) : ∃ c, StandsFor quote c w := by
  induction h with
  | nil => cases hw
  | @cons c _ _ _ hc _ ih =>
    rcases List.mem_cons.1 hw with rfl | hw
    · exact ⟨c, hc⟩
    · exact ih hw

theorem readQuotedRest_writings (hquote : quote = '\'' ∨ quote = '"')
    (h : List.Forall₂ (StandsFor quote) text writings) {fuel : Nat} (offset : Nat)
    (rest : List Char) (hfuel : (writings.flatten ++ quote :: rest).length < fuel) :
    readQuotedRest quote fuel offset (writings.flatten ++ quote :: rest) =
      .ok ⟨text, (starts writings).map (offset + ·), offset + writings.flatten.length + 1⟩ := by
  induction h generalizing fuel offset with
  | nil =>
    obtain ⟨fuel, rfl⟩ : ∃ n, fuel = n + 1 := ⟨fuel - 1, by omega⟩
    show readQuotedRest quote (fuel + 1) offset (quote :: rest) = _
    rw [readQuotedRest, (nextPiece_eq_close_iff hquote).2 ⟨rest, rfl⟩]
    rfl
  | @cons c w text writings hw _ ih =>
    -- a writing takes a character at least, so the fuel is enough for the others
    obtain ⟨fuel, rfl⟩ : ∃ n, fuel = n + 1 := ⟨fuel - 1, by omega⟩
    have hpos := List.length_pos_of_ne_nil hw.ne_nil
    have hpiece := (nextPiece_eq_char_iff hquote).2
      ⟨w, writings.flatten ++ quote :: rest, rfl, rfl, hw⟩
    rw [List.flatten_cons, List.append_assoc] at hfuel ⊢
    rw [List.length_append] at hfuel
    rw [readQuotedRest, hpiece]
    simp only [List.drop_left]
    rw [ih (offset + w.length) (by omega), Except.ok_bind]
    simp [List.map_map, Function.comp_def, Nat.add_assoc]

theorem exists_writings_of_readQuotedRest (hquote : quote = '\'' ∨ quote = '"')
    {fuel offset : Nat} (h : readQuotedRest quote fuel offset cs = .ok q) :
    ∃ writings rest, cs = writings.flatten ++ quote :: rest ∧
      List.Forall₂ (StandsFor quote) q.text writings ∧
      q.offsets = (starts writings).map (offset + ·) ∧
      q.width = offset + writings.flatten.length + 1 := by
  induction fuel generalizing offset cs q with
  | zero => cases h
  | succ fuel ih =>
    rw [readQuotedRest] at h
    split at h
    · rename_i hclose
      obtain rfl := Except.ok.inj h
      obtain ⟨rest, rfl⟩ := (nextPiece_eq_close_iff hquote).1 hclose
      exact ⟨[], rest, rfl, .nil, rfl, rfl⟩
    · cases h
    · cases h
    · rename_i c width hpiece
      obtain ⟨w, behind, rfl, rfl, hw⟩ := (nextPiece_eq_char_iff hquote).1 hpiece
      obtain ⟨q, hq, h⟩ := Except.bind_eq_ok_iff.1 h
      obtain rfl := Except.ok.inj h
      rw [List.drop_left] at hq
      obtain ⟨writings, rest, rfl, htext, hoffsets, hwidth⟩ := ih hq
      refine ⟨w :: writings, rest, by simp, .cons hw htext, ?_, ?_⟩
      · simp [hoffsets, List.map_map, Function.comp_def, Nat.add_assoc]
      · simp only [hwidth, List.flatten_cons, List.length_append]
        omega

end Strings

end Text

/-- Without a line feed a place stays on its line. -/
theorem Position.after_eq_shifted {p : Position} {cs : List Char} (h : '\n' ∉ cs) :
    p.after cs = p.shifted cs.length := by
  induction cs generalizing p with
  | nil => rfl
  | cons c cs ih =>
    rw [List.mem_cons, not_or] at h
    obtain ⟨hc, hcs⟩ := h
    rw [after_cons, ih hcs, step, if_neg (Ne.symm hc)]
    simp only [shifted, List.length_cons]
    congr 1
    omega

namespace Cursor

variable {quote : Char} {text : String} {writings : List (List Char)} {c next : Cursor}
  {columns : List Nat} {rest : List Char}

/-- Behind the opening quote the writings stay on its line. -/
theorem after_writings (hquote : quote = '\'' ∨ quote = '"') {cs : List Char}
    (h : List.Forall₂ (Text.StandsFor quote) cs writings) (p : Position) (k : Nat) :
    p.after (quote :: (writings.take k).flatten) =
      p.shifted (1 + (writings.take k).flatten.length) := by
  rw [Position.after_eq_shifted, List.length_cons, Nat.add_comm]
  intro hmem
  rcases List.mem_cons.1 hmem with hmem | hmem
  · rcases hquote with rfl | rfl <;> exact absurd hmem (by decide)
  · obtain ⟨w, hw, hmem⟩ := List.mem_flatten.1 hmem
    obtain ⟨d, hd⟩ := Text.exists_standsFor h (List.mem_of_mem_take hw)
    exact hd.line_feed_not_mem hmem

theorem pass_writings (h : c.rest = quote :: (writings.flatten ++ quote :: rest)) :
    c.pass (1 + writings.flatten.length + 1) =
      ⟨rest, c.position.after (quote :: (writings.flatten ++ [quote]))⟩ := by
  have hlength : 1 + writings.flatten.length + 1 =
      (quote :: (writings.flatten ++ [quote])).length := by
    rw [List.length_cons, List.length_append, List.length_singleton]
    omega
  rw [hlength]
  exact pass_append (by rw [h, List.cons_append, List.append_assoc]; rfl)

/-- A string is read exactly if what stands between its quotes are writings of its characters. -/
theorem readQuoted_eq_ok_iff :
    c.readQuoted = (.ok ⟨text, columns⟩, next) ↔
      ∃ quote writings, (quote = '\'' ∨ quote = '"') ∧
        c.rest = quote :: (writings.flatten ++ quote :: next.rest) ∧
        List.Forall₂ (Text.StandsFor quote) text.toList writings ∧
        columns = (Text.starts writings).map (c.position.column + 1 + ·) ∧
        next.position = c.position.after (quote :: (writings.flatten ++ [quote])) := by
  constructor
  · intro h
    rw [readQuoted] at h
    split at h
    · rename_i q hq
      obtain ⟨hok, rfl⟩ := Prod.mk.inj h
      obtain ⟨rfl, rfl⟩ := QuotedText.mk.inj (Except.ok.inj hok)
      rw [Text.readQuoted.eq_def] at hq
      split at hq
      · cases hq
      · rename_i quote cs hrest
        split at hq
        · rename_i hquote
          have hquote : quote = '\'' ∨ quote = '"' := by simpa using hquote
          obtain ⟨writings, rest, rfl, htext, hoffsets, hwidth⟩ :=
            Text.exists_writings_of_readQuotedRest hquote hq
          rw [hwidth, pass_writings hrest]
          refine ⟨quote, writings, hquote, hrest, by rwa [String.toList_ofList], ?_, rfl⟩
          simp only [hoffsets, List.map_map, Function.comp_def, Nat.add_assoc]
        · cases hq
    · cases congrArg Prod.fst h
  · rintro ⟨quote, writings, hquote, hrest, htext, rfl, hposition⟩
    have hread : Text.readQuoted c.rest = .ok ⟨text.toList, (Text.starts writings).map (1 + ·),
        1 + writings.flatten.length + 1⟩ := by
      rw [hrest, Text.readQuoted, if_pos (by simpa using hquote)]
      exact Text.readQuotedRest_writings hquote htext 1 next.rest (Nat.lt_succ_self _)
    rw [readQuoted, hread]
    simp only [pass_writings hrest, ← hposition]
    simp only [List.map_map, Function.comp_def, Nat.add_assoc, String.ofList_toList]

/-- The columns of a string are those at which its writings begin, and then the closing quote. -/
theorem getElem?_columns (hquote : quote = '\'' ∨ quote = '"') {cs : List Char}
    (h : List.Forall₂ (Text.StandsFor quote) cs writings) (p : Position) {k : Nat}
    (hk : k ≤ writings.length) :
    ∃ column, ((Text.starts writings).map (p.column + 1 + ·))[k]? = some column ∧
      p.after (quote :: (writings.take k).flatten) = ⟨p.line, column⟩ := by
  refine ⟨p.column + 1 + (writings.take k).flatten.length, ?_, ?_⟩
  · rw [List.getElem?_map, Text.getElem?_starts hk, Option.map_some]
  · rw [after_writings hquote h, Position.shifted, Nat.add_assoc]

/-- A text that is written between quotes is read again, whatever way of writing was chosen for
each of its characters and whatever stands behind the closing quote. Its columns are those at which
the writings begin, one behind the other, and last that of the closing quote. -/
theorem readQuoted_written (hquote : quote = '\'' ∨ quote = '"')
    (h : List.Forall₂ (Text.IsWriting quote) text.toList writings)
    (hc : c.rest = quote :: (writings.flatten ++ quote :: rest)) :
    ∃ columns, c.readQuoted =
        (.ok ⟨text, columns⟩, ⟨rest, c.position.after (quote :: (writings.flatten ++ [quote]))⟩) ∧
      columns.length = text.length + 1 ∧ columns.Pairwise (· < ·) ∧
      ∀ k ≤ text.length, ∃ column, columns[k]? = some column ∧
        c.position.after (quote :: (writings.take k).flatten) = ⟨c.position.line, column⟩ := by
  have hstands : List.Forall₂ (Text.StandsFor quote) text.toList writings := h.imp fun _ _ => .inl
  have hlength : writings.length = text.length := by
    rw [← String.length_toList, h.length_eq]
  refine ⟨(Text.starts writings).map (c.position.column + 1 + ·),
    readQuoted_eq_ok_iff.2 ⟨quote, writings, hquote, hc, hstands, rfl, rfl⟩, ?_, ?_, ?_⟩
  · rw [List.length_map, Text.length_starts, hlength]
  · have hne : ∀ w ∈ writings, w ≠ [] := fun w hw => by
      obtain ⟨d, hd⟩ := Text.exists_standsFor hstands hw
      exact hd.ne_nil
    exact List.pairwise_map.2 ((Text.pairwise_starts hne).imp fun hlt => Nat.add_lt_add_left hlt _)
  · exact fun k hk => getElem?_columns hquote hstands _ (hlength ▸ hk)

/-- Five ways of writing, with digits of either case, behind which a text goes on. -/
theorem readQuoted_written_mixed :
    ∃ columns, (Cursor.ofText "\"a\\\"\\u00E9\\n\\uD83d\\uDe00\", 1" ⟨3, 5⟩).readQuoted =
        (.ok ⟨"a\"é\n😀", columns⟩, ⟨", 1".toList, ⟨3, 30⟩⟩) ∧
      columns.length = 6 ∧ columns.Pairwise (· < ·) ∧
      ∀ k ≤ 5, ∃ column, columns[k]? = some column ∧
        (⟨3, 5⟩ : Position).after ('"' :: ((["a", "\\\"", "\\u00E9", "\\n",
          "\\uD83d\\uDe00"].map String.toList).take k).flatten) = ⟨3, column⟩ := by
  have hmixed : List.Forall₂ (Text.IsWriting '"') "a\"é\n😀".toList
      (["a", "\\\"", "\\u00E9", "\\n", "\\uD83d\\uDe00"].map String.toList) :=
    .cons (.raw (by decide) (by decide) (by decide)) <|
    .cons (.short (by decide)) <|
    .cons (.code ⟨by decide, by decide⟩) <|
    .cons (.short (by decide)) <|
    .cons (@Text.IsWriting.pair _ _ 0xD83D 0xDE00 "D83d".toList "De00".toList
      ⟨by decide, by decide⟩ ⟨by decide, by decide⟩ ⟨by decide, by decide⟩
      ⟨by decide, by decide⟩ (by decide)) .nil
  exact readQuoted_written (.inr rfl) hmixed rfl

end Cursor

end DocQuery
