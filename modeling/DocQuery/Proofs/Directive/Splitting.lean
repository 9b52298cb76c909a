/-
The parts of a string with expressions in it.

* `SplitsInto` — how a string is taken apart, one expression after the other;
* `splitInterpolation_eq_iff` — splitting ends, and takes a string apart like that;
* `expression_is_isolated` — an expression is found as it is, whatever it contains;
* `splitInterpolation_parts` — the parts of a string are all of it, or its first expression without
  an end is named.

Design notes: splitting begins anew behind every expression, with the number of characters that it
has passed. So what is proved by induction holds of the rest of a string wherever the rest begins.
-/
import DocQuery.Proofs.Directive.Enclosure
import DocQuery.Proofs.Directive.Literal

namespace DocQuery

/-- A part as it is written in a string. -/
def Fragment.written : Fragment → List Char
  | .text content => content
  | .expression content _ => '$' :: '(' :: (content ++ [')'])

/-- The string that parts make. -/
def writeFragments (fragments : List Fragment) : List Char :=
  fragments.flatMap Fragment.written

/-- A part that stands behind `n` more characters. -/
def Fragment.shifted (n : Nat) : Fragment → Fragment
  | .text content => .text content
  | .expression content offset => .expression content (n + offset)

/-- The part that text without expressions makes, if there is any. -/
def textFragments (plain : List Char) : List Fragment :=
  if plain.isEmpty then [] else [.text plain]

/-- How a string that stands behind `start` characters is taken apart: into its parts, or up to the
first expression that has no end. -/
inductive SplitsInto : Nat → List Char → Except Nat (List Fragment) → Prop
  | plain (start : Nat) {plain : List Char} : ¬ ['$', '('] <:+: plain →
    SplitsInto start plain (.ok (textFragments plain))
  | unclosed (start : Nat) {plain rest : List Char} : ¬ ['$', '('] <:+: plain →
    NeverCloses rest →
      SplitsInto start (plain ++ '$' :: '(' :: rest) (.error (start + plain.length))
  | closed {start : Nat} {plain inner rest : List Char} {r : Except Nat (List Fragment)} :
    ¬ ['$', '('] <:+: plain → IsEnclosed inner →
      SplitsInto (start + plain.length + 2 + (inner.length + 1)) rest r →
        SplitsInto start (plain ++ '$' :: '(' :: (inner ++ ')' :: rest))
          (r.map fun fragments => textFragments plain ++
            .expression inner (start + plain.length + 2) :: fragments)

/-! ### Splitting takes a string apart -/

section Splitting

variable {start fuel : Nat} {cs plain rest inner : List Char} {r : Except Nat (List Fragment)}

/-- Text that is no beginning of an expression goes up to the first one. -/
theorem plainStart_append (h : ¬ ['$', '('] <:+: plain) (rest : List Char) :
    plainStart (plain ++ '$' :: '(' :: rest) = plain := by
  induction plain with
  | nil => rfl
  | cons c plain ih =>
    have hplain := ih fun hinside => h (List.infix_cons hinside)
    rw [List.cons_append, plainStart]
    · rw [hplain]
    · intro tail hc htail
      -- the character behind a dollar sign is one of the text, or the next dollar sign
      subst hc
      cases plain with
      | nil => cases htail
      | cons d plain =>
        obtain ⟨rfl, -⟩ := List.cons.inj htail
        exact h (List.prefix_append ['$', '('] plain).isInfix

/-- A string has no expression, or it begins with text before its first one. -/
theorem exists_plain (cs : List Char) :
    ¬ ['$', '('] <:+: cs ∨
      ∃ plain rest, ¬ ['$', '('] <:+: plain ∧ cs = plain ++ '$' :: '(' :: rest := by
  induction cs with
  | nil => exact .inl (by simp)
  | cons c cs ih =>
    by_cases hstart : ['$', '('] <+: c :: cs
    · obtain ⟨rest, hrest⟩ := hstart
      exact .inr ⟨[], rest, by simp, hrest.symm⟩
    · rcases ih with hnone | ⟨plain, rest, hplain, rfl⟩
      · left
        rw [List.infix_cons_iff, not_or]
        exact ⟨hstart, hnone⟩
      · refine .inr ⟨c :: plain, rest, ?_, rfl⟩
        rw [List.infix_cons_iff, not_or]
        refine ⟨fun hprefix => hstart ?_, hplain⟩
        exact hprefix.trans (List.prefix_append (c :: plain) _)

/-- A string has an expression exactly when one begins in it. -/
theorem hasExpression_iff : hasExpression cs = true ↔ ['$', '('] <:+: cs := by
  rw [hasExpression, bne_iff_ne]
  constructor
  · intro hne
    by_contra hnone
    have hplain := plainStart_of_not_infix hnone
    exact hne hplain
  · intro hinside heq
    obtain hnone | ⟨plain, rest, hplain, rfl⟩ := exists_plain cs
    · exact hnone hinside
    · rw [plainStart_append hplain] at heq
      have hlength := congrArg List.length heq
      rw [List.length_append, List.length_cons] at hlength
      omega

theorem splitFrom_plain (h : ¬ ['$', '('] <:+: plain) :
    splitFrom (fuel + 1) start plain = .ok (textFragments plain) := by
  rw [splitFrom, plainStart_of_not_infix h]
  simp only [List.drop_length]
  rfl

theorem splitFrom_unclosed (h : ¬ ['$', '('] <:+: plain) (hrest : NeverCloses rest) :
    splitFrom (fuel + 1) start (plain ++ '$' :: '(' :: rest) = .error (start + plain.length) := by
  rw [splitFrom, plainStart_append h]
  simp only [List.drop_left, closingOffset?_eq_none_iff.2 hrest]

theorem splitFrom_closed (h : ¬ ['$', '('] <:+: plain) (hinner : IsEnclosed inner) :
    splitFrom (fuel + 1) start (plain ++ '$' :: '(' :: (inner ++ ')' :: rest)) =
      (splitFrom fuel (start + plain.length + 2 + (inner.length + 1)) rest).map fun fragments =>
        textFragments plain ++ .expression inner (start + plain.length + 2) :: fragments := by
  have htake : ('(' :: (inner ++ ')' :: rest)).take (inner.length + 1) = '(' :: inner := by
    rw [List.take_succ_cons, List.take_left]
  have hdrop : ('(' :: (inner ++ ')' :: rest)).drop (inner.length + 1 + 1) = rest := by
    rw [List.drop_succ_cons, List.drop_append]
    simp
  rw [splitFrom, plainStart_append h]
  simp only [List.drop_left, closingOffset?_enclosed hinner, htake, hdrop]
  rcases splitFrom fuel _ rest with offset | fragments
  · rfl
  · rfl

/-- What takes a string apart is what splitting finds, if it has a step for every character. -/
theorem SplitsInto.splitFrom_eq (h : SplitsInto start cs r) (hfuel : cs.length < fuel) :
    splitFrom fuel start cs = r := by
  induction h generalizing fuel with
  | plain start hplain =>
    obtain ⟨fuel, rfl⟩ : ∃ n, fuel = n + 1 := ⟨fuel - 1, by omega⟩
    exact splitFrom_plain hplain
  | unclosed start hplain hrest =>
    obtain ⟨fuel, rfl⟩ : ∃ n, fuel = n + 1 := ⟨fuel - 1, by omega⟩
    exact splitFrom_unclosed hplain hrest
  | closed hplain hinner _ ih =>
    obtain ⟨fuel, rfl⟩ : ∃ n, fuel = n + 1 := ⟨fuel - 1, by omega⟩
    simp only [List.length_append, List.length_cons] at hfuel
    rw [splitFrom_closed hplain hinner, ih (by omega)]

/-- Every string is taken apart. -/
theorem exists_splitsInto (start : Nat) (cs : List Char) : ∃ r, SplitsInto start cs r := by
  induction hlength : cs.length using Nat.strong_induction_on generalizing start cs with
  | _ length ih =>
    subst hlength
    rcases exists_plain cs with hplain | ⟨plain, rest, hplain, rfl⟩
    · exact ⟨_, .plain start hplain⟩
    · by_cases hnever : NeverCloses rest
      · exact ⟨_, .unclosed start hplain hnever⟩
      · -- behind the closing parenthesis the string is shorter
        unfold NeverCloses at hnever
        push Not at hnever
        obtain ⟨inner, more, hinner, rfl⟩ := hnever
        have hshorter : more.length < (plain ++ '$' :: '(' :: (inner ++ ')' :: more)).length := by
          simp only [List.length_append, List.length_cons]
          omega
        obtain ⟨r, hr⟩ := ih _ hshorter (start + plain.length + 2 + (inner.length + 1)) more rfl
        exact ⟨_, .closed hplain hinner hr⟩

/-- Splitting ends, and takes a string apart from its start. -/
theorem splitInterpolation_eq_iff : splitInterpolation cs = r ↔ SplitsInto 0 cs r := by
  constructor
  · rintro rfl
    obtain ⟨r, hr⟩ := exists_splitsInto 0 cs
    rw [splitInterpolation, hr.splitFrom_eq (Nat.lt_succ_self _)]
    exact hr
  · intro h
    exact h.splitFrom_eq (Nat.lt_succ_self _)

/-- Text has no offset that could be shifted. -/
theorem map_shifted_textFragments (n : Nat) (plain : List Char) :
    (textFragments plain).map (Fragment.shifted n) = textFragments plain := by
  rw [textFragments]
  split
  · rfl
  · rfl

/-- A string is taken apart in the same way behind other characters. -/
theorem SplitsInto.shifted (h : SplitsInto start cs r) (n : Nat) :
    SplitsInto (n + start) cs
      ((r.mapError (n + ·)).map fun fragments => fragments.map (Fragment.shifted n)) := by
  induction h with
  | @plain start plain hplain =>
    have hsplits := SplitsInto.plain (n + start) hplain
    rw [← map_shifted_textFragments n plain] at hsplits
    exact hsplits
  | @unclosed start plain rest hplain hrest =>
    have hsplits := SplitsInto.unclosed (n + start) hplain hrest
    rw [Nat.add_assoc] at hsplits
    exact hsplits
  | @closed start plain inner rest r hplain hinner _ ih =>
    have hrest : n + (start + plain.length + 2 + (inner.length + 1)) =
        n + start + plain.length + 2 + (inner.length + 1) := by omega
    rw [hrest] at ih
    have hsplits := SplitsInto.closed hplain hinner ih
    have hoffset : n + start + plain.length + 2 = n + (start + plain.length + 2) := by omega
    rw [hoffset] at hsplits
    rcases r with offset | fragments
    · exact hsplits
    · have hmap : (textFragments plain ++ .expression inner (start + plain.length + 2) ::
          fragments).map (Fragment.shifted n) = textFragments plain ++
            .expression inner (n + (start + plain.length + 2)) ::
              fragments.map (Fragment.shifted n) := by
        rw [List.map_append, map_shifted_textFragments, List.map_cons]
        rfl
      show SplitsInto _ _ (.ok (List.map _ _))
      rw [hmap]
      exact hsplits

end Splitting

/-! ### Expressions are found as they are -/

/-- An expression that is understood is taken out of a string as it is, whatever quotations, escapes
and parentheses it contains: the parenthesis before it is closed by the one behind it, a call has it
between its parentheses, and a string with text before it and anything behind it is split into the
text, the expression and what the rest is split into. If that has an expression without an end, it
is reported. -/
theorem expression_is_isolated {text : String} {origin : Position} {e : Expr}
    (h : parseExpression .standard text origin = .ok e) :
    (∀ post, closingOffset? ('(' :: (text.toList ++ ')' :: post)) =
      some (text.toList.length + 1)) ∧
    (∀ marker ∈ [valueMarker, mergeMarker],
      callBody? marker (marker ++ text.toList ++ [')']) = some text.toList) ∧
    ∀ plain rest, ¬ ['$', '('] <:+: plain →
      splitInterpolation (plain ++ '$' :: '(' :: (text.toList ++ ')' :: rest)) =
        let before := plain.length + 2 + (text.toList.length + 1)
        match splitInterpolation rest with
        | .ok fragments => .ok (textFragments plain ++
          .expression text.toList (plain.length + 2) :: fragments.map (Fragment.shifted before))
        | .error offset => .error (before + offset) := by
  have henclosed : IsEnclosed text.toList :=
    isEnclosed_of_parse Language.standard_hasPlainSymbols (by decide) h
  refine ⟨fun post => closingOffset?_enclosed henclosed post, ?_, ?_⟩
  · intro marker hmarker
    obtain ⟨start, hstart⟩ := exists_of_mem_markers hmarker
    exact (callBody?_eq_some_iff hstart).2 ⟨rfl, henclosed⟩
  · intro plain rest hplain
    rw [splitInterpolation_eq_iff]
    have hrest : SplitsInto 0 rest (splitInterpolation rest) := splitInterpolation_eq_iff.1 rfl
    have hbehind := hrest.shifted (plain.length + 2 + (text.toList.length + 1))
    have hstart : plain.length + 2 + (text.toList.length + 1) + 0 =
        0 + plain.length + 2 + (text.toList.length + 1) := by omega
    rw [hstart] at hbehind
    have hsplits := SplitsInto.closed hplain henclosed hbehind
    rw [Nat.zero_add] at hsplits
    cases hr : splitInterpolation rest with
    | error offset =>
      rw [hr] at hsplits
      exact hsplits
    | ok fragments =>
      rw [hr] at hsplits
      exact hsplits

/-- A call whose arguments have a quote behind a backslash, parentheses and escapes in them. -/
theorem expression_is_isolated_quoted :
    let text := "Contains(')\\'(', \"\\u0028\\\")\")"
    (∃ e, parseExpression .standard text .start = .ok e) ∧
      callBody? valueMarker (valueMarker ++ text.toList ++ [')']) = some text.toList ∧
        splitInterpolation ("n: $(".toList ++ text.toList ++ ")!".toList) =
          .ok [.text ['n', ':', ' '], .expression text.toList 5, .text ['!']] := by
  intro text
  have hparse : (parseExpression .standard text .start).isOk := by decide +kernel
  obtain ⟨e, he⟩ := Except.exists_of_isOk hparse
  obtain ⟨-, hcall, hsplit⟩ := expression_is_isolated he
  have hplain : ¬ ['$', '('] <:+: ['n', ':', ' '] := by decide
  exact ⟨⟨e, he⟩, hcall valueMarker List.mem_cons_self, hsplit ['n', ':', ' '] ['!'] hplain⟩

/-! ### Parts are all of a string -/

/-- Whether parts are as splitting makes them behind `start` characters: texts are not empty, have no
expression in them and do not stand side by side, expressions are enclosed, and the offset of an
expression counts the characters before it, its own dollar sign and parenthesis among them. -/
structure AreParts (start : Nat) (fragments : List Fragment) : Prop where
  text_ne_nil : ∀ content, .text content ∈ fragments → content ≠ []
  text_plain : ∀ content, .text content ∈ fragments → ¬ ['$', '('] <:+: content
  texts_apart : ∀ before a b after, fragments ≠ before ++ .text a :: .text b :: after
  enclosed : ∀ content offset, .expression content offset ∈ fragments → IsEnclosed content
  offset_eq : ∀ before content offset after,
    fragments = before ++ .expression content offset :: after →
      offset = start + (writeFragments before ++ ['$', '(']).length

section Parts

variable {start : Nat} {cs plain inner : List Char} {fragments : List Fragment}

@[simp]
theorem writeFragments_cons (fragment : Fragment) (fragments : List Fragment) :
    writeFragments (fragment :: fragments) = fragment.written ++ writeFragments fragments :=
  rfl

@[simp]
theorem writeFragments_append (before after : List Fragment) :
    writeFragments (before ++ after) = writeFragments before ++ writeFragments after :=
  List.flatMap_append

@[simp]
theorem writeFragments_textFragments (plain : List Char) :
    writeFragments (textFragments plain) = plain := by
  cases plain with
  | nil => rfl
  | cons c plain => exact List.append_nil _

theorem AreParts.nil (start : Nat) : AreParts start [] where
  text_ne_nil := by simp
  text_plain := by simp
  texts_apart := by simp
  enclosed := by simp
  offset_eq := by simp

theorem AreParts.text_cons (hne : plain ≠ []) (hplain : ¬ ['$', '('] <:+: plain)
    (hapart : ∀ a after, fragments ≠ .text a :: after)
    (h : AreParts (start + plain.length) fragments) : AreParts start (.text plain :: fragments) where
  text_ne_nil content hmem := by
    rcases List.mem_cons.1 hmem with heq | hmem
    · cases heq
      exact hne
    · exact h.text_ne_nil content hmem
  text_plain content hmem := by
    rcases List.mem_cons.1 hmem with heq | hmem
    · cases heq
      exact hplain
    · exact h.text_plain content hmem
  texts_apart before a b after heq := by
    cases before with
    | nil => exact hapart b after (List.cons.inj heq).2
    | cons fragment before => exact h.texts_apart before a b after (List.cons.inj heq).2
  enclosed content offset hmem := by
    rcases List.mem_cons.1 hmem with heq | hmem
    · cases heq
    · exact h.enclosed content offset hmem
  offset_eq before content offset after heq := by
    cases before with
    | nil => cases heq
    | cons fragment before =>
      obtain ⟨rfl, hbehind⟩ := List.cons.inj heq
      rw [h.offset_eq before content offset after hbehind]
      simp only [writeFragments_cons, Fragment.written, List.length_append]
      omega

theorem AreParts.expression_cons (hinner : IsEnclosed inner)
    (h : AreParts (start + 2 + (inner.length + 1)) fragments) :
    AreParts start (.expression inner (start + 2) :: fragments) where
  text_ne_nil content hmem := by
    rcases List.mem_cons.1 hmem with heq | hmem
    · cases heq
    · exact h.text_ne_nil content hmem
  text_plain content hmem := by
    rcases List.mem_cons.1 hmem with heq | hmem
    · cases heq
    · exact h.text_plain content hmem
  texts_apart before a b after heq := by
    cases before with
    | nil => cases heq
    | cons fragment before => exact h.texts_apart before a b after (List.cons.inj heq).2
  enclosed content offset hmem := by
    rcases List.mem_cons.1 hmem with heq | hmem
    · cases heq
      exact hinner
    · exact h.enclosed content offset hmem
  offset_eq before content offset after heq := by
    cases before with
    | nil =>
      cases heq
      rfl
    | cons fragment before =>
      obtain ⟨rfl, hbehind⟩ := List.cons.inj heq
      rw [h.offset_eq before content offset after hbehind]
      simp only [writeFragments_cons, Fragment.written, List.length_append, List.length_cons,
        List.length_nil]
      omega

/-- Text in front of parts that do not begin with one makes a part, unless there is none. -/
theorem AreParts.textFragments_append (hplain : ¬ ['$', '('] <:+: plain)
    (hapart : ∀ a after, fragments ≠ .text a :: after)
    (h : AreParts (start + plain.length) fragments) :
    AreParts start (textFragments plain ++ fragments) := by
  by_cases hne : plain = []
  · subst hne
    exact h
  · have hone : textFragments plain = [.text plain] := by
      rw [textFragments, if_neg (by simpa using hne)]
    rw [hone]
    exact .text_cons hne hplain hapart h

/-- The parts that a string is taken apart into are all of it; without an end, an expression stands
behind parts that are all of what is before it. -/
theorem SplitsInto.areParts {r : Except Nat (List Fragment)} (h : SplitsInto start cs r) :
    match r with
    | .ok fragments => AreParts start fragments ∧ writeFragments fragments = cs
    | .error offset => ∃ fragments rest, AreParts start fragments ∧
        cs = writeFragments fragments ++ '$' :: '(' :: rest ∧
          offset = start + (writeFragments fragments).length ∧ NeverCloses rest := by
  have halone : ∀ {start : Nat} {plain : List Char}, ¬ ['$', '('] <:+: plain →
      AreParts start (textFragments plain) := by
    intro start plain hplain
    rw [← List.append_nil (textFragments plain)]
    exact AreParts.textFragments_append hplain (by simp) (.nil _)
  induction h with
  | plain start hplain => exact ⟨halone hplain, writeFragments_textFragments _⟩
  | @unclosed start plain rest hplain hrest =>
    refine ⟨textFragments plain, rest, halone hplain, ?_, ?_, hrest⟩
    · rw [writeFragments_textFragments]
    · rw [writeFragments_textFragments]
  | @closed start plain inner rest r hplain hinner _ ih =>
    -- the parts behind the expression are those of the rest, in both cases
    have hparts : ∀ {fragments},
        AreParts (start + plain.length + 2 + (inner.length + 1)) fragments →
          AreParts start (textFragments plain ++
            .expression inner (start + plain.length + 2) :: fragments) := fun hfragments =>
      AreParts.textFragments_append hplain (by simp) (.expression_cons hinner hfragments)
    have hwritten : ∀ fragments : List Fragment,
        writeFragments (textFragments plain ++
          .expression inner (start + plain.length + 2) :: fragments) =
            plain ++ '$' :: '(' :: (inner ++ ')' :: writeFragments fragments) := by
      intro fragments
      simp [Fragment.written]
    cases r with
    | ok fragments =>
      obtain ⟨hfragments, hrest⟩ := ih
      refine ⟨hparts hfragments, ?_⟩
      rw [hwritten, hrest]
    | error offset =>
      obtain ⟨fragments, more, hfragments, hrest, hoffset, hnever⟩ := ih
      refine ⟨_, more, hparts hfragments, ?_, ?_, hnever⟩
      · rw [hwritten, hrest]
        simp
      · rw [hwritten, hoffset]
        simp only [List.length_append, List.length_cons]
        omega

end Parts

/-- Splitting ends with a step for every character. Its parts make the whole string: texts that are
not empty, have no expression in them and do not stand side by side, and enclosed expressions, each
with the number of characters before it. It fails only at an expression without an end that stands
behind such parts, with the number of characters before it. -/
theorem splitInterpolation_parts (cs : List Char) :
    (∀ fuel, cs.length < fuel → splitFrom fuel 0 cs = splitInterpolation cs) ∧
    match splitInterpolation cs with
    | .ok fragments => AreParts 0 fragments ∧ writeFragments fragments = cs
    | .error offset => ∃ fragments rest, AreParts 0 fragments ∧
        cs = writeFragments fragments ++ '$' :: '(' :: rest ∧
          offset = (writeFragments fragments).length ∧ NeverCloses rest := by
  have hsplits : SplitsInto 0 cs (splitInterpolation cs) := splitInterpolation_eq_iff.1 rfl
  refine ⟨fun fuel hfuel => hsplits.splitFrom_eq hfuel, ?_⟩
  generalize splitInterpolation cs = r at hsplits ⊢
  cases r with
  | ok fragments => exact hsplits.areParts
  | error offset => simpa only [Nat.zero_add] using hsplits.areParts

end DocQuery
