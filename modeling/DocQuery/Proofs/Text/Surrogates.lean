/-
Escapes of surrogates that are not paired.

* `Text.IsBody` — what can stand in a string before one of its escapes;
* `Text.HasLoneLow`, `Text.HasLoneHigh` — a second half without a first one before it, and a first
  half without a second one behind it;
* `Text.HasForcedPair` — a first half with another escape behind it that is not of a second half;
* `Cursor.readQuoted_unpaired` — lone halves are rejected, as long as nothing forces a first half
  into a pair, and then every character that is read was written;
* `Cursor.readQuoted_forced` — a first half that is forced into a pair is not rejected.

Design notes: an escape belongs to a string if what stands before it can be taken apart into plain
characters and backslashes with the characters behind them. The reader takes the same text apart
into writings. Both begin with the opening quote, so an escape can only fail to begin a writing if
it is the second of two.
-/
import DocQuery.Proofs.Text.Escaping

namespace DocQuery

namespace Text

/-- What can stand between the opening quote of a string and one of its characters: every backslash
comes with the character behind it, and no other one is the quote. -/
inductive IsBody (quote : Char) : List Char → Prop
  | nil : IsBody quote []
  | plain {c : Char} {cs : List Char} : c ≠ quote → c ≠ '\\' → IsBody quote cs →
      IsBody quote (c :: cs)
  | escaped {c : Char} {cs : List Char} : IsBody quote cs → IsBody quote ('\\' :: c :: cs)

/-- Whether the last escape of `before` is of the first half of a pair, with nothing behind it. -/
def EndsWithHigh (quote : Char) (before : List Char) : Prop :=
  ∃ earlier high digits, IsBody quote earlier ∧ IsHighSurrogate high ∧ IsFourDigits high digits ∧
    before = earlier ++ codeEscape digits

/-- Whether an escape of a second half does not directly follow one of a first half. -/
def HasLoneLow (quote : Char) (body : List Char) : Prop :=
  ∃ before low digits behind, body = before ++ (codeEscape digits ++ behind) ∧
    IsBody quote before ∧ IsLowSurrogate low ∧ IsFourDigits low digits ∧
    ¬ EndsWithHigh quote before

/-- Whether an escape of a first half is not directly followed by one of a second half. -/
def HasLoneHigh (quote : Char) (body : List Char) : Prop :=
  ∃ before high digits behind, body = before ++ (codeEscape digits ++ behind) ∧
    IsBody quote before ∧ IsHighSurrogate high ∧ IsFourDigits high digits ∧
    ∀ low second rest, IsLowSurrogate low → IsFourDigits low second →
      behind ≠ codeEscape second ++ rest

/-- Whether an escape of a first half is directly followed by one that is not of a second half. -/
def HasForcedPair (quote : Char) (body : List Char) : Prop :=
  ∃ before c pair behind, body = before ++ (pair ++ behind) ∧ IsBody quote before ∧
    IsForcedPair c pair

section

variable {quote c : Char} {as bs xs ys w before body rest : List Char} {code high : Nat}
  {digits : List Char} {text : List Char} {writings : List (List Char)}

/-! ### What belongs to a string -/

theorem IsBody.append (ha : IsBody quote as) (hb : IsBody quote bs) : IsBody quote (as ++ bs) := by
  induction ha with
  | nil => exact hb
  | plain hclose hbackslash _ ih => exact .plain hclose hbackslash ih
  | escaped _ ih => exact .escaped ih

theorem isBody_codeEscape (hquote : quote = '\'' ∨ quote = '"') (h : IsFourDigits code digits) :
    IsBody quote (codeEscape digits) := by
  have hplain : ∀ {cs : List Char}, (∀ d ∈ cs, isHexDigit d) → IsBody quote cs := by
    intro cs hcs
    induction cs with
    | nil => exact .nil
    | cons d cs ih =>
      have hd := hcs d List.mem_cons_self
      refine .plain ?_ ?_ (ih fun x hx => hcs x (List.mem_cons_of_mem _ hx))
      · rintro rfl
        rcases hquote with rfl | rfl <;> exact absurd hd (by decide)
      · rintro rfl
        exact absurd hd (by decide)
  exact .escaped (hplain h.isHexDigit)

theorem StandsFor.isBody (hquote : quote = '\'' ∨ quote = '"') (h : StandsFor quote c w) :
    IsBody quote w := by
  cases h using StandsFor.cases_pair with
  | raw hclose hbackslash _ => exact .plain hclose hbackslash .nil
  | short _ => exact .escaped .nil
  | code hdigits => exact isBody_codeEscape hquote hdigits
  | pair _ hfirst hsecond _ =>
    exact (isBody_codeEscape hquote hfirst).append (isBody_codeEscape hquote hsecond)

/-- Of two beginnings of a string the shorter one ends where something begins in the longer one. -/
theorem IsBody.split (ha : IsBody quote as) (hb : IsBody quote bs) (h : as ++ xs = bs ++ ys) :
    (∃ more, IsBody quote more ∧ bs = as ++ more) ∨
      ∃ more, IsBody quote more ∧ as = bs ++ more := by
  induction ha generalizing bs with
  | nil => exact .inl ⟨bs, hb, rfl⟩
  | @plain c cs hclose hbackslash hcs ih =>
    cases hb with
    | nil => exact .inr ⟨c :: cs, .plain hclose hbackslash hcs, rfl⟩
    | plain _ _ hds =>
      obtain ⟨rfl, hrest⟩ := List.cons.inj h
      rcases ih hds hrest with ⟨more, hmore, rfl⟩ | ⟨more, hmore, rfl⟩
      · exact .inl ⟨more, hmore, rfl⟩
      · exact .inr ⟨more, hmore, rfl⟩
    | escaped _ => exact absurd (List.cons.inj h).1 hbackslash
  | @escaped c cs hcs ih =>
    cases hb with
    | nil => exact .inr ⟨'\\' :: c :: cs, .escaped hcs, rfl⟩
    | plain _ hbackslash _ => exact absurd (List.cons.inj h).1.symm hbackslash
    | escaped hds =>
      obtain ⟨rfl, hrest⟩ := List.cons.inj (List.cons.inj h).2
      rcases ih hds hrest with ⟨more, hmore, rfl⟩ | ⟨more, hmore, rfl⟩
      · exact .inl ⟨more, hmore, rfl⟩
      · exact .inr ⟨more, hmore, rfl⟩

theorem not_isBody_quote (hquote : quote ≠ '\\') : ¬ IsBody quote (quote :: as) := by
  intro h
  cases h with
  | plain hclose _ _ => exact hclose rfl
  | escaped _ => exact hquote rfl

/-! ### Where an escape can stand -/

theorem backslash_not_mem (h : IsFourDigits code digits) : '\\' ∉ digits := fun hmem =>
  absurd (h.isHexDigit _ hmem) (by decide)

/-- A backslash within two escapes begins one of them. -/
theorem eq_of_codeEscape_pair {first second more : List Char} {other : Nat}
    (hfirst : IsFourDigits high first) (hsecond : IsFourDigits other second) (hne : before ≠ [])
    (h : codeEscape first ++ codeEscape second = before ++ '\\' :: more) :
    before = codeEscape first := by
  rcases List.append_eq_append_iff.1 h with ⟨middle, rfl, hmiddle⟩ | ⟨middle, hmiddle, hmore⟩
  · rcases middle with _ | ⟨a, _ | ⟨b, middle⟩⟩
    · rw [List.append_nil]
    · exact absurd (List.cons.inj (List.cons.inj hmiddle).2).1 (by decide)
    · have hdigits : second = middle ++ '\\' :: more := (List.cons.inj (List.cons.inj hmiddle).2).2
      exact absurd (by simp [hdigits]) (backslash_not_mem hsecond)
  · rcases middle with _ | ⟨a, middle⟩
    · rw [hmiddle, List.append_nil]
    · obtain ⟨rfl, -⟩ := List.cons.inj hmore
      rcases before with _ | ⟨b, _ | ⟨d, before⟩⟩
      · exact absurd rfl hne
      · exact absurd (List.cons.inj (List.cons.inj hmiddle).2).1 (by decide)
      · have hdigits : first = before ++ '\\' :: middle :=
          (List.cons.inj (List.cons.inj hmiddle).2).2
        exact absurd (by simp [hdigits]) (backslash_not_mem hfirst)

/-- A backslash in a writing begins it, or it begins the second of its two escapes. -/
theorem StandsFor.cut {more : List Char} (h : StandsFor quote c (before ++ '\\' :: more))
    (hbefore : IsBody quote before) (hne : before ≠ []) : EndsWithHigh quote before := by
  generalize hw : before ++ '\\' :: more = w at h
  obtain ⟨b, before, rfl⟩ := List.exists_cons_of_ne_nil hne
  cases h using StandsFor.cases_pair with
  | raw _ _ _ => simp at hw
  | short _ =>
    -- the writing has two characters, so the backslash would be the second one
    obtain ⟨rfl, htail⟩ := List.cons.inj hw
    obtain rfl : before = [] := by
      rcases before with _ | ⟨d, before⟩
      · rfl
      · simp at htail
    cases hbefore with
    | plain _ hbackslash _ => exact absurd rfl hbackslash
  | code hdigits =>
    obtain ⟨rfl, htail⟩ := List.cons.inj hw
    rcases before with _ | ⟨d, before⟩
    · exact absurd (List.cons.inj htail).1 (by decide)
    · have hsplit := (List.cons.inj htail).2
      exact absurd (by simp [← hsplit]) (backslash_not_mem hdigits)
  | @pair high _ first _ hhigh hfirst hsecond _ =>
    exact ⟨[], high, first, .nil, hhigh, hfirst, eq_of_codeEscape_pair hfirst hsecond hne hw.symm⟩

theorem EndsWithHigh.append (ha : IsBody quote as) (h : EndsWithHigh quote bs) :
    EndsWithHigh quote (as ++ bs) := by
  obtain ⟨earlier, high, digits, hearlier, hhigh, hdigits, rfl⟩ := h
  exact ⟨as ++ earlier, high, digits, ha.append hearlier, hhigh, hdigits,
    (List.append_assoc _ _ _).symm⟩

/-- An escape in a string that was read begins a writing, or an escape of a first half of a pair
comes directly before it. -/
theorem writing_begins (hquote : quote = '\'' ∨ quote = '"')
    (h : List.Forall₂ (StandsFor quote) text writings) (hbefore : IsBody quote before)
    (heq : writings.flatten ++ quote :: rest = before ++ '\\' :: ys)
    (hhigh : ¬ EndsWithHigh quote before) :
    ∃ done c w left, writings = done ++ w :: left ∧ done.flatten = before ∧
      StandsFor quote c w := by
  have hbackslash : quote ≠ '\\' := by rcases hquote with rfl | rfl <;> decide
  induction h generalizing before with
  | nil =>
    -- the closing quote is neither a character of a string nor a backslash
    rcases before with _ | ⟨b, before⟩
    · exact absurd (List.cons.inj heq).1 hbackslash
    · obtain ⟨rfl, -⟩ := List.cons.inj heq
      exact absurd hbefore (not_isBody_quote hbackslash)
  | @cons c w text writings hw _ ih =>
    rcases eq_or_ne before [] with rfl | hne
    · exact ⟨[], c, w, writings, rfl, rfl, hw⟩
    rw [List.flatten_cons, List.append_assoc] at heq
    -- the first writing stands before the escape as a whole, or the escape begins within it
    have hbehind : ∀ more, IsBody quote more → before = w ++ more →
        ∃ done d x left, w :: writings = done ++ x :: left ∧ done.flatten = before ∧
          StandsFor quote d x := by
      rintro more hmore rfl
      rw [List.append_assoc, List.append_cancel_left_eq] at heq
      obtain ⟨done, d, x, left, rfl, rfl, hx⟩ :=
        ih hmore heq fun hends => hhigh (hends.append (hw.isBody hquote))
      exact ⟨w :: done, d, x, left, rfl, rfl, hx⟩
    rcases (hw.isBody hquote).split hbefore heq with ⟨more, hmore, hsplit⟩ | ⟨more, -, hsplit⟩
    · exact hbehind more hmore hsplit
    · rcases more with _ | ⟨m, more⟩
      · exact hbehind [] .nil (by rw [hsplit, List.append_nil, List.append_nil])
      · subst hsplit
        rw [List.append_assoc, List.append_cancel_left_eq] at heq
        obtain ⟨rfl, -⟩ := List.cons.inj heq
        exact absurd (hw.cut hbefore hne) hhigh

/-- A writing that begins with an escape is of the character with its code, or the escape is of a
first half and another one follows, which is of a second half unless the pair is forced. -/
theorem StandsFor.eq_codeEscape (h : StandsFor quote c w) (hdigits : IsFourDigits code digits)
    (heq : w ++ xs = codeEscape digits ++ ys) :
    c.toNat = code ∨ IsHighSurrogate code ∧ ∃ other second, IsFourDigits other second ∧
      ys = codeEscape second ++ xs ∧ (IsLowSurrogate other ∨ IsForcedPair c w) := by
  -- both have four digits behind the `u`
  have hsame : ∀ {high first zs}, IsFourDigits high first →
      codeEscape first ++ zs = codeEscape digits ++ ys → high = code ∧ zs = ys := by
    intro high first zs hfirst h
    obtain ⟨rfl, hrest⟩ := List.append_inj (List.cons.inj (List.cons.inj h).2).2
      (hfirst.length_eq.trans hdigits.length_eq.symm)
    exact ⟨hfirst.code_eq hdigits, hrest⟩
  cases h using StandsFor.cases_pair with
  | raw _ hbackslash _ => exact absurd (List.cons.inj heq).1 hbackslash
  | short hletter =>
    obtain ⟨rfl, -⟩ := List.cons.inj (List.cons.inj heq).2
    exact absurd hletter not_mem_shortEscapes_u
  | code hfirst => exact .inl (hsame hfirst heq).1
  | @pair high other first second hhigh hfirst hsecond hc =>
    rw [List.append_assoc] at heq
    obtain ⟨rfl, rfl⟩ := hsame hfirst heq
    refine .inr ⟨hhigh, other, second, hsecond, rfl, ?_⟩
    by_cases hlow : IsLowSurrogate other
    · exact .inl hlow
    · exact .inr (.mk hhigh hlow hfirst hsecond hc)

/-! ### What a string that was read does not have -/

theorem not_hasLoneLow (hquote : quote = '\'' ∨ quote = '"')
    (h : List.Forall₂ (StandsFor quote) text writings) :
    ¬ HasLoneLow quote (writings.flatten ++ quote :: rest) := by
  rintro ⟨before, low, digits, behind, hbody, hbefore, hlow, hdigits, hlone⟩
  obtain ⟨done, c, w, left, rfl, rfl, hw⟩ := writing_begins hquote h hbefore hbody hlone
  rw [List.flatten_append, List.append_assoc, List.append_cancel_left_eq, List.flatten_cons,
    List.append_assoc] at hbody
  -- a writing that begins with the escape would be of a character with its code
  rcases hw.eq_codeEscape hdigits hbody with hcode | ⟨hhigh, -⟩
  · exact (toNat_not_surrogate c).2 (hcode ▸ hlow)
  · exact hhigh.not_low hlow

/-- Every two escapes of which the first one is of a first half are read as some character. -/
theorem exists_forced {other : Nat} {first second : List Char} (hhigh : IsHighSurrogate high)
    (hother : ¬ IsLowSurrogate other) (hfirst : IsFourDigits high first)
    (hsecond : IsFourDigits other second) :
    ∃ c, IsForcedPair c (codeEscape first ++ codeEscape second) :=
  ⟨surrogatePair high other, .mk hhigh hother hfirst hsecond (toNat_surrogatePair hhigh)⟩

theorem hasForcedPair_of_hasLoneHigh (hquote : quote = '\'' ∨ quote = '"')
    (h : List.Forall₂ (StandsFor quote) text writings)
    (hlone : HasLoneHigh quote (writings.flatten ++ quote :: rest)) :
    HasForcedPair quote (writings.flatten ++ quote :: rest) := by
  obtain ⟨before, high, digits, behind, hbody, hbefore, hhigh, hdigits, hlone⟩ := hlone
  by_cases hends : EndsWithHigh quote before
  · -- the escape before it takes this one for its second half
    obtain ⟨earlier, first, firstDigits, hearlier, hfirst, hfirstDigits, rfl⟩ := hends
    obtain ⟨c, hforced⟩ := exists_forced hfirst hhigh.not_low hfirstDigits hdigits
    exact ⟨earlier, c, _, behind, by rw [hbody]; simp, hearlier, hforced⟩
  · obtain ⟨done, c, w, left, rfl, rfl, hw⟩ := writing_begins hquote h hbefore hbody hends
    have hbody' := hbody
    rw [List.flatten_append, List.append_assoc, List.append_cancel_left_eq, List.flatten_cons,
      List.append_assoc] at hbody'
    rcases hw.eq_codeEscape hdigits hbody' with hcode | ⟨-, low, second, hsecond, rfl, hpair⟩
    · exact absurd (hcode ▸ hhigh) (toNat_not_surrogate c).1
    · rcases hpair with hlow | hforced
      · exact absurd rfl (hlone low second _ hlow hsecond)
      · exact ⟨done.flatten, c, w, left.flatten ++ quote :: rest, by simp, hbefore, hforced⟩

/-- Where nothing is forced into a pair, every character was written. -/
theorem forall₂_isWriting (hquote : quote = '\'' ∨ quote = '"')
    (h : List.Forall₂ (StandsFor quote) text writings)
    (hforced : ¬ HasForcedPair quote (before ++ (writings.flatten ++ rest)))
    (hbefore : IsBody quote before) : List.Forall₂ (IsWriting quote) text writings := by
  induction h generalizing before with
  | nil => exact .nil
  | @cons c w text writings hw _ ih =>
    rw [List.flatten_cons, List.append_assoc] at hforced
    have hbehind := @ih (before ++ w) (by rwa [List.append_assoc])
      (hbefore.append (hw.isBody hquote))
    rcases hw with hw | hw
    · exact .cons hw hbehind
    · exact absurd ⟨before, c, w, _, rfl, hbefore, hw⟩ hforced

end

end Text

namespace Cursor

variable {quote : Char} {body : List Char} {c : Cursor}

/-- A string is read, or it is malformed. -/
theorem readQuoted_or_malformed (c : Cursor) :
    (∃ text columns next, c.readQuoted = (.ok ⟨text, columns⟩, next)) ∨
      ∃ problem place, c.readQuoted.1 = .error (.malformed problem place) := by
  unfold readQuoted
  split
  · exact .inl ⟨_, _, _, rfl⟩
  · exact .inr ⟨_, _, rfl⟩

/-- A string with a second half that does not directly follow a first one is malformed, and so is
one with a first half that no second one directly follows, unless another escape does so somewhere
and is taken for one. Without such a pair every character that is read was written. -/
theorem readQuoted_unpaired (hquote : quote = '\'' ∨ quote = '"') (hc : c.rest = quote :: body) :
    (Text.HasLoneLow quote body →
      ∃ problem place, c.readQuoted.1 = .error (.malformed problem place)) ∧
    (Text.HasLoneHigh quote body → ¬ Text.HasForcedPair quote body →
      ∃ problem place, c.readQuoted.1 = .error (.malformed problem place)) ∧
    ∀ text columns next, c.readQuoted = (.ok ⟨text, columns⟩, next) →
      ∃ writings, body = writings.flatten ++ quote :: next.rest ∧
        List.Forall₂ (Text.StandsFor quote) text.toList writings ∧
        (¬ Text.HasForcedPair quote body →
          List.Forall₂ (Text.IsWriting quote) text.toList writings) := by
  have hread : ∀ text columns next, c.readQuoted = (.ok ⟨text, columns⟩, next) →
      ∃ writings, body = writings.flatten ++ quote :: next.rest ∧
        List.Forall₂ (Text.StandsFor quote) text.toList writings := by
    intro text columns next h
    obtain ⟨opening, writings, -, hrest, hwritings, -⟩ := readQuoted_eq_ok_iff.1 h
    obtain ⟨rfl, hbody⟩ := List.cons.inj (hc.symm.trans hrest)
    exact ⟨writings, hbody, hwritings⟩
  refine ⟨fun hlone => ?_, fun hlone hforced => ?_, fun text columns next h => ?_⟩
  · refine c.readQuoted_or_malformed.resolve_left fun ⟨text, columns, next, h⟩ => ?_
    obtain ⟨writings, rfl, hwritings⟩ := hread text columns next h
    exact Text.not_hasLoneLow hquote hwritings hlone
  · refine c.readQuoted_or_malformed.resolve_left fun ⟨text, columns, next, h⟩ => ?_
    obtain ⟨writings, rfl, hwritings⟩ := hread text columns next h
    exact hforced (Text.hasForcedPair_of_hasLoneHigh hquote hwritings hlone)
  · obtain ⟨writings, rfl, hwritings⟩ := hread text columns next h
    exact ⟨writings, rfl, hwritings, fun hforced =>
      @Text.forall₂_isWriting quote [] _ _ _ hquote hwritings hforced .nil⟩

/-- A first half with a letter behind it. -/
theorem readQuoted_unpaired_high :
    ∃ problem place,
      (Cursor.ofText "\"a\\uD83Dx\"" .start).readQuoted.1 = .error (.malformed problem place) := by
  have hlone : Text.HasLoneHigh '"' "a\\uD83Dx\"".toList := by
    refine ⟨['a'], 0xD83D, "D83D".toList, ['x', '"'], rfl, .plain (by decide) (by decide) .nil,
      ⟨by decide, by decide⟩, ⟨by decide, by decide⟩, fun low second rest _ _ h => ?_⟩
    exact absurd (List.cons.inj h).1 (by decide)
  have hforced : ¬ Text.HasForcedPair '"' "a\\uD83Dx\"".toList := by
    rintro ⟨before, d, _, behind, hbody, -, ⟨-, -, hfirst, hsecond, -⟩⟩
    have hlength := congrArg List.length hbody
    simp [Text.codeEscape, hfirst.length_eq, hsecond.length_eq] at hlength
    omega
  exact (readQuoted_unpaired (c := Cursor.ofText "\"a\\uD83Dx\"" .start) (.inr rfl) rfl).2.1 hlone
    hforced

/-- A first half that the escape of a letter follows is read as a character of which neither half
was written. -/
theorem readQuoted_forced :
    Text.HasLoneHigh '"' "\\uD800\\u0041\"".toList ∧
      (Cursor.ofText "\"\\uD800\\u0041\"" .start).readQuoted =
        (.ok ⟨String.ofList [Char.ofNat 0x10041], [2, 14]⟩, ⟨[], ⟨1, 15⟩⟩) := by
  refine ⟨⟨[], 0xD800, "D800".toList, "\\u0041\"".toList, rfl, .nil, ⟨by decide, by decide⟩,
    ⟨by decide, by decide⟩, fun low second rest hlow hsecond h => ?_⟩, by decide⟩
  have hletter : Text.IsFourDigits 0x41 "0041".toList := ⟨by decide, by decide⟩
  have hbehind : "0041".toList ++ ['"'] = second ++ rest := (List.cons.inj (List.cons.inj h).2).2
  obtain ⟨hdigits, -⟩ := List.append_inj hbehind hsecond.length_eq.symm
  have hcode : low = 0x41 := (hdigits ▸ hsecond).code_eq hletter
  exact absurd hlow (by rw [hcode]; unfold Text.IsLowSurrogate; omega)

end Cursor

end DocQuery
