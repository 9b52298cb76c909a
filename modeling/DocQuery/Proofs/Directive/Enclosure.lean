/-
Where a parenthesis in a string is closed.

* `IsQuotable`, `IsEnclosed` — texts whose quotations end, and whose parentheses are closed, inside
  them;
* `closingOffset?_eq_some_iff` — a parenthesis is closed behind the enclosed text that follows it;
* `closingOffset?_eq_none_iff` — it is never closed where no such text follows;
* `callBody?_eq_some_iff` — a call is a marker, an enclosed text and a parenthesis;
* `stringAction_of_value`, `stringAction_of_merge`, `stringAction_of_unclosed` — what is found in a
  string that is a call, or the beginning of one.

Design notes: what is enclosed is said by the forms of a text and not by a scan of it. A scan that
has found the closing parenthesis has passed enclosed texts only, one for each parenthesis that was
open; so the proof goes by the length of the text and looks at the parenthesis that was opened last.
-/
import DocQuery.Directive.Detect
import DocQuery.Proofs.Directive.Closing

namespace DocQuery

/-- Whether a text can stand between two quotes `q`. A backslash takes the next character with it,
and a quote ends the quotation otherwise. -/
inductive IsQuotable (q : Char) : List Char → Prop
  | nil : IsQuotable q []
  | char {c : Char} {cs : List Char} : c ≠ q → c ≠ '\\' → IsQuotable q cs → IsQuotable q (c :: cs)
  | escaped (c : Char) {cs : List Char} : IsQuotable q cs → IsQuotable q ('\\' :: c :: cs)

/-- Whether all quotations of a text end in it, and all parentheses outside of them come in pairs,
an opening one before its closing one. -/
inductive IsEnclosed : List Char → Prop
  | nil : IsEnclosed []
  | plain {c : Char} {cs : List Char} : isPlainChar c → IsEnclosed cs → IsEnclosed (c :: cs)
  | quoted {q : Char} {body cs : List Char} : q = '\'' ∨ q = '"' → IsQuotable q body →
    IsEnclosed cs → IsEnclosed (q :: (body ++ q :: cs))
  | nested {inner cs : List Char} : IsEnclosed inner → IsEnclosed cs →
    IsEnclosed ('(' :: (inner ++ ')' :: cs))

/-- Whether a parenthesis before a text is not closed in it. -/
def NeverCloses (cs : List Char) : Prop :=
  ∀ inner rest, IsEnclosed inner → cs ≠ inner ++ ')' :: rest

namespace ParenScan

variable {cs : List Char} {c q : Char} {depth n : Nat}

/-! ### Enclosed texts are passed -/

theorem goesThrough_quotable (h : IsQuotable q cs) :
    (inside depth q).GoesThrough cs (inside depth q) := by
  induction h with
  | nil => exact goesThrough_nil _
  | char hquote hescape _ ih => exact (goesThrough_quoted hquote hescape).append ih
  | escaped c _ ih => exact (goesThrough_escaped c).append ih

/-- An enclosed text is passed inside a parenthesis, and leaves it open. -/
theorem goesThrough_enclosed (h : IsEnclosed cs) (hdepth : 1 ≤ depth) :
    (outside depth).GoesThrough cs (outside depth) := by
  induction h generalizing depth with
  | nil => exact goesThrough_nil _
  | plain hc _ ih => exact (goesThrough_plain hc).append (ih hdepth)
  | @quoted q body cs hq hbody _ ih =>
    have hquotation : (outside depth).GoesThrough (q :: (body ++ [q])) (outside depth) :=
      (goesThrough_openQuote hq).append ((goesThrough_quotable hbody).append
        (goesThrough_closeQuote hq))
    have hall := hquotation.append (ih hdepth)
    rwa [List.cons_append, List.append_assoc] at hall
  | @nested inner cs _ _ ihInner ih =>
    have hopen : (outside depth).GoesThrough ['('] (outside (depth + 1)) :=
      goesThrough_char (s := outside depth) (c := '(') (by simp)
    have hclose : (outside (depth + 1)).GoesThrough [')'] (outside depth) := by
      refine goesThrough_char (s := outside (depth + 1)) (c := ')') ?_
      have hmany : ¬ depth + 1 ≤ 1 := by omega
      exact Bool.and_eq_false_iff.2 (.inr (decide_eq_false hmany))
    have hgroup := hopen.append ((ihInner (Nat.le_add_left 1 depth)).append hclose)
    have hall := hgroup.append (ih hdepth)
    rwa [List.append_assoc, List.append_assoc] at hall

/-! ### What is passed is enclosed -/

/-- A character that does not end the scan is one that it takes. -/
theorem closing?_cons {s : ParenScan}
    (h : (s.quote.isNone && c == ')' && decide (s.depth ≤ 1)) = false)
    (hclosing : s.closing? (c :: cs) = some n) :
    ∃ m, (s.step c).closing? cs = some m ∧ n = m + 1 := by
  rw [closing?, h] at hclosing
  obtain ⟨m, hm, rfl⟩ := Option.map_eq_some_iff.1 hclosing
  exact ⟨m, hm, rfl⟩

/-- A quotation in which the scan goes on has its closing quote. -/
theorem exists_quotable_of_closing? : (cs : List Char) → {n : Nat} →
    (inside depth q).closing? cs = some n →
      ∃ body rest m, cs = body ++ q :: rest ∧ IsQuotable q body ∧
        (outside depth).closing? rest = some m ∧ n = body.length + 1 + m
  | [], _, h => by cases h
  | c :: cs, n, h => by
    obtain ⟨m, hm, rfl⟩ := closing?_cons rfl h
    by_cases hescape : c = '\\'
    · subst hescape
      -- the next character belongs to the backslash, whatever it is
      cases cs with
      | nil => cases hm
      | cons d cs =>
        obtain ⟨k, hk, rfl⟩ := closing?_cons rfl hm
        have hstep : ((inside depth q).step '\\').step d = inside depth q := by
          simp [step, inside]
        rw [hstep] at hk
        obtain ⟨body, rest, i, rfl, hbody, hrest, rfl⟩ := exists_quotable_of_closing? cs hk
        refine ⟨'\\' :: d :: body, rest, i, rfl, .escaped d hbody, hrest, ?_⟩
        simp only [List.length_cons]
        omega
    · by_cases hquote : c = q
      · subst hquote
        have hstep : (inside depth c).step c = outside depth := by
          simp [step, inside, outside, hescape]
        rw [hstep] at hm
        refine ⟨[], cs, m, rfl, .nil, hm, ?_⟩
        rw [List.length_nil]
        omega
      · have hstep : (inside depth q).step c = inside depth q := by
          simp [step, inside, hquote, hescape]
        rw [hstep] at hm
        obtain ⟨body, rest, k, rfl, hbody, hrest, rfl⟩ := exists_quotable_of_closing? cs hm
        refine ⟨c :: body, rest, k, rfl, .char hquote hescape hbody, hrest, ?_⟩
        rw [List.length_cons]
        omega

/-- Where a scan with one parenthesis open, and `depth` others around it, ends or goes on. -/
def Continues : (depth : Nat) → List Char → Nat → Prop
  | 0, _, n => n = 0
  | depth + 1, rest, n => ∃ m, (outside (depth + 1)).closing? rest = some m ∧ n = m + 1

/-- Up to the parenthesis that closes the last open one, a scan has passed an enclosed text. -/
theorem exists_enclosed_of_closing? (h : (outside (depth + 1)).closing? cs = some n) :
    ∃ inner rest m, cs = inner ++ ')' :: rest ∧ IsEnclosed inner ∧ Continues depth rest m ∧
      n = inner.length + m := by
  induction hlength : cs.length using Nat.strong_induction_on generalizing cs depth n with
  | _ length ih =>
    subst hlength
    cases cs with
    | nil => cases h
    | cons c cs =>
      by_cases hclose : c = ')'
      · subst hclose
        refine ⟨[], cs, n, rfl, .nil, ?_, (Nat.zero_add n).symm⟩
        cases depth with
        | zero =>
          obtain rfl : 0 = n := by simpa [closing?, outside] using h
          rfl
        | succ depth =>
          have hmany : ¬ depth + 1 + 1 ≤ 1 := by omega
          have hgoes : ((outside (depth + 1 + 1)).quote.isNone && ')' == ')' &&
              decide ((outside (depth + 1 + 1)).depth ≤ 1)) = false :=
            Bool.and_eq_false_iff.2 (.inr (decide_eq_false hmany))
          exact closing?_cons hgoes h
      · have hgoes : ((outside (depth + 1)).quote.isNone && c == ')' &&
            decide ((outside (depth + 1)).depth ≤ 1)) = false := by
          simp [hclose]
        obtain ⟨m, hm, rfl⟩ := closing?_cons hgoes h
        by_cases hquote : c = '\'' ∨ c = '"'
        · -- a quotation, behind which the scan is where it was
          have hstep : (outside (depth + 1)).step c = inside (depth + 1) c := by
            rcases hquote with rfl | rfl
            · rfl
            · rfl
          rw [hstep] at hm
          obtain ⟨body, rest, k, rfl, hbody, hrest, rfl⟩ := exists_quotable_of_closing? cs hm
          have hshorter : rest.length < (c :: (body ++ c :: rest)).length := by
            simp only [List.length_cons, List.length_append]
            omega
          obtain ⟨inner, last, j, rfl, hinner, hlast, rfl⟩ := ih _ hshorter hrest rfl
          refine ⟨c :: (body ++ c :: inner), last, j, by simp, .quoted hquote hbody hinner, hlast, ?_⟩
          simp only [List.length_cons, List.length_append]
          omega
        · by_cases hopen : c = '('
          · -- a parenthesis, which is closed first
            subst hopen
            have hstep : (outside (depth + 1)).step '(' = outside (depth + 1 + 1) := rfl
            rw [hstep] at hm
            have hshorter : cs.length < ('(' :: cs).length := Nat.lt_succ_self _
            obtain ⟨group, rest, k, rfl, hgroup, ⟨i, hi, rfl⟩, rfl⟩ := ih _ hshorter hm rfl
            have hrest : rest.length < ('(' :: (group ++ ')' :: rest)).length := by
              simp only [List.length_cons, List.length_append]
              omega
            obtain ⟨inner, last, j, rfl, hinner, hlast, rfl⟩ := ih _ hrest hi rfl
            refine ⟨'(' :: (group ++ ')' :: inner), last, j, by simp, .nested hgroup hinner, hlast, ?_⟩
            simp only [List.length_cons, List.length_append]
            omega
          · have hplain : isPlainChar c := by
              rw [not_or] at hquote
              simp [isPlainChar, hquote.1, hquote.2, hopen, hclose]
            have hstep : (outside (depth + 1)).step c = outside (depth + 1) := by
              rw [not_or] at hquote
              simp [step, outside, hquote.1, hquote.2, hopen, hclose]
            rw [hstep] at hm
            have hshorter : cs.length < (c :: cs).length := Nat.lt_succ_self _
            obtain ⟨inner, last, j, rfl, hinner, hlast, rfl⟩ := ih _ hshorter hm rfl
            refine ⟨c :: inner, last, j, rfl, .plain hplain hinner, hlast, ?_⟩
            rw [List.length_cons]
            omega

end ParenScan

/-! ### The closing parenthesis -/

open ParenScan (outside)

variable {cs : List Char} {n : Nat}

theorem closingOffset?_enclosed {inner : List Char} (h : IsEnclosed inner) (rest : List Char) :
    closingOffset? ('(' :: (inner ++ ')' :: rest)) = some (inner.length + 1) := by
  have hopen : (outside 0).GoesThrough ['('] (outside 1) :=
    ParenScan.goesThrough_char (s := outside 0) (c := '(') rfl
  have hscan := hopen.append (ParenScan.goesThrough_enclosed h (Nat.le_refl 1))
  have hclose := hscan (')' :: rest)
  rw [closingOffset?]
  refine hclose.trans ?_
  rw [ParenScan.closing?, if_pos (by rfl), Option.map_some, Nat.zero_add]
  rfl

/-- A parenthesis is closed behind the enclosed text that follows it. -/
theorem closingOffset?_eq_some_iff :
    closingOffset? ('(' :: cs) = some n ↔
      ∃ inner rest, cs = inner ++ ')' :: rest ∧ IsEnclosed inner ∧ n = inner.length + 1 := by
  constructor
  · intro h
    obtain ⟨m, hm, rfl⟩ := ParenScan.closing?_cons rfl h
    have hstep : (outside 0).step '(' = outside 1 := rfl
    have hscan : (outside (0 + 1)).closing? cs = some m := hstep ▸ hm
    obtain ⟨inner, rest, k, hcs, hinner, hend, rfl⟩ := ParenScan.exists_enclosed_of_closing? hscan
    obtain rfl : k = 0 := hend
    exact ⟨inner, rest, hcs, hinner, rfl⟩
  · rintro ⟨inner, rest, rfl, hinner, rfl⟩
    exact closingOffset?_enclosed hinner rest

theorem closingOffset?_eq_none_iff : closingOffset? ('(' :: cs) = none ↔ NeverCloses cs := by
  rw [Option.eq_none_iff_forall_ne_some]
  constructor
  · intro h inner rest hinner hcs
    exact h _ (closingOffset?_eq_some_iff.2 ⟨inner, rest, hcs, hinner, rfl⟩)
  · intro h n hn
    obtain ⟨inner, rest, hcs, hinner, -⟩ := closingOffset?_eq_some_iff.1 hn
    exact h inner rest hinner hcs

/-- An expression is enclosed. -/
theorem isEnclosed_of_parse {l : Language} (hl : l.hasPlainSymbols)
    (hbelow : ∀ o ∈ l.operators, o.precedence < 255) {text : String} {origin : Position} {e : Expr}
    (h : parseExpression l text origin = .ok e) : IsEnclosed text.toList := by
  have hclosed := closingOffset?_of_parse hl hbelow h []
  obtain ⟨inner, rest, hcs, hinner, hlength⟩ := closingOffset?_eq_some_iff.1 hclosed
  have hsame : text.toList = inner := List.append_inj_left hcs (by omega)
  exact hsame ▸ hinner

/-! ### Calls -/

theorem valueMarker_eq : valueMarker = ['$', 'v', 'a', 'l', 'u', 'e'] ++ ['('] := rfl

theorem mergeMarker_eq : mergeMarker = ['$', 'm', 'e', 'r', 'g', 'e'] ++ ['('] := rfl

/-- Both markers end with a parenthesis. -/
theorem exists_of_mem_markers {marker : List Char} (h : marker ∈ [valueMarker, mergeMarker]) :
    ∃ start, marker = start ++ ['('] := by
  rcases List.mem_pair.1 h with rfl | rfl
  · exact ⟨_, valueMarker_eq⟩
  · exact ⟨_, mergeMarker_eq⟩

/-- A text that begins with a marker is followed up from the parenthesis of the marker. -/
theorem callEnd?_append {marker start : List Char} (hmarker : marker = start ++ ['('])
    (rest : List Char) :
    callEnd? marker (marker ++ rest) =
      (closingOffset? ('(' :: rest)).map (· + (marker.length - 1)) := by
  have hdrop : (marker ++ rest).drop (marker.length - 1) = '(' :: rest := by
    rw [hmarker, List.length_append, List.length_singleton, Nat.add_sub_cancel, List.append_assoc,
      List.drop_left]
    rfl
  rw [callEnd?, hdrop]

theorem callEnd?_enclosed {marker start body : List Char} (hmarker : marker = start ++ ['('])
    (h : IsEnclosed body) :
    callEnd? marker (marker ++ body ++ [')']) = some (marker ++ body).length := by
  rw [List.append_assoc, callEnd?_append hmarker, closingOffset?_enclosed h, Option.map_some,
    hmarker]
  simp only [List.length_append, List.length_cons, List.length_nil]
  congr 1
  omega

/-- The parenthesis of a marker at the start of a text is not closed. -/
theorem isOpen_iff {marker start : List Char} (hmarker : marker = start ++ ['(']) :
    (marker.isPrefixOf cs && (callEnd? marker cs).isNone) = true ↔
      ∃ rest, cs = marker ++ rest ∧ NeverCloses rest := by
  rw [Bool.and_eq_true, List.isPrefixOf_iff_prefix]
  constructor
  · rintro ⟨⟨rest, rfl⟩, hnone⟩
    rw [callEnd?_append hmarker, Option.isNone_map, Option.isNone_iff_eq_none] at hnone
    exact ⟨rest, rfl, closingOffset?_eq_none_iff.1 hnone⟩
  · rintro ⟨rest, rfl, hnever⟩
    refine ⟨List.prefix_append _ _, ?_⟩
    rw [callEnd?_append hmarker, closingOffset?_eq_none_iff.2 hnever]
    rfl

/-- A call is a marker, an enclosed text and a parenthesis. -/
theorem callBody?_eq_some_iff {marker start body : List Char} (hmarker : marker = start ++ ['(']) :
    callBody? marker cs = some body ↔ cs = marker ++ body ++ [')'] ∧ IsEnclosed body := by
  have hpos : 1 ≤ marker.length := by
    rw [hmarker, List.length_append, List.length_singleton]
    omega
  constructor
  · intro h
    rw [callBody?] at h
    split at h
    · rename_i hprefix
      obtain ⟨rest, rfl⟩ := List.isPrefixOf_iff_prefix.1 hprefix
      rw [callEnd?_append hmarker] at h
      split at h
      · rename_i last hlast
        obtain ⟨n, hn, rfl⟩ := Option.map_eq_some_iff.1 hlast
        obtain ⟨inner, after, rfl, hinner, rfl⟩ := closingOffset?_eq_some_iff.1 hn
        split at h
        · rename_i hwhole
          simp only [List.length_append, List.length_cons] at hwhole
          obtain rfl : after = [] := List.eq_nil_of_length_eq_zero (by omega)
          have hbefore : inner.length + 1 + (marker.length - 1) = (marker ++ inner).length := by
            rw [List.length_append]
            omega
          rw [hbefore, ← List.append_assoc, List.take_left, List.drop_left] at h
          obtain rfl := Option.some.inj h
          exact ⟨by rw [List.append_assoc], hinner⟩
        · cases h
      · cases h
    · cases h
  · rintro ⟨rfl, hbody⟩
    have hprefix : marker.isPrefixOf (marker ++ body ++ [')']) := by
      rw [List.isPrefixOf_iff_prefix, List.append_assoc]
      exact List.prefix_append _ _
    rw [callBody?, if_pos hprefix, callEnd?_enclosed hmarker hbody]
    have hwhole : (marker ++ body).length + 1 = (marker ++ body ++ [')']).length := by
      simp only [List.length_append, List.length_cons, List.length_nil]
    simp only [if_pos hwhole]
    rw [List.take_left, List.drop_left]

/-! ### What is found in calls -/

section Markers

variable {d : Dialect} {c : Cell} {slot : Option Slot} {marker other body rest : List Char}

/-- No string begins with both markers. -/
theorem marker_unique {more : List Char} (h : marker ∈ [valueMarker, mergeMarker])
    (h' : other ∈ [valueMarker, mergeMarker]) (heq : marker ++ rest = other ++ more) :
    marker = other ∧ rest = more := by
  -- the markers are of the same length, so the strings are cut at the same place
  have hlength : ∀ m ∈ [valueMarker, mergeMarker], m.length = 7 := by decide
  exact List.append_inj heq ((hlength marker h).trans (hlength other h').symm)

/-- A call without an end is found by its marker. -/
theorem find?_open (h : marker ∈ [valueMarker, mergeMarker])
    (hrest : NeverCloses rest) :
    ([valueMarker, mergeMarker].find? fun other => other.isPrefixOf (marker ++ rest) &&
      (callEnd? other (marker ++ rest)).isNone) = some marker := by
  obtain ⟨start, hstart⟩ := exists_of_mem_markers h
  have hopen := (isOpen_iff hstart).2 ⟨rest, rfl, hrest⟩
  rcases List.mem_pair.1 h with rfl | rfl
  · exact List.find?_cons_of_pos hopen
  · rw [List.find?_cons_of_neg]
    · exact List.find?_cons_of_pos hopen
    · intro hother
      obtain ⟨more, heq, -⟩ := (isOpen_iff valueMarker_eq).1 hother
      have hsame := (marker_unique h List.mem_cons_self heq).1
      exact absurd hsame (by decide)

/-- A string that is no call without an end is not found as one. -/
theorem find?_open_eq_none (h : ∀ marker ∈ [valueMarker, mergeMarker], ∀ rest,
    cs = marker ++ rest → ¬ NeverCloses rest) :
    ([valueMarker, mergeMarker].find? fun marker =>
      marker.isPrefixOf cs && (callEnd? marker cs).isNone) = none := by
  rw [List.find?_eq_none]
  intro marker hmarker hopen
  obtain ⟨start, hstart⟩ := exists_of_mem_markers hmarker
  obtain ⟨rest, hcs, hrest⟩ := (isOpen_iff hstart).1 hopen
  exact h marker hmarker rest hcs hrest

/-- A whole call is not one without an end. -/
theorem not_neverCloses_of_call (h : marker ∈ [valueMarker, mergeMarker])
    (hbody : IsEnclosed body) : ∀ other ∈ [valueMarker, mergeMarker], ∀ rest,
      marker ++ body ++ [')'] = other ++ rest → ¬ NeverCloses rest := by
  intro other hother rest heq hnever
  rw [List.append_assoc] at heq
  obtain ⟨-, rfl⟩ := marker_unique h hother heq
  exact hnever body [] hbody rfl

/-- A whole call of one kind is not one of another. -/
theorem callBody?_of_call (h : marker ∈ [valueMarker, mergeMarker])
    (h' : other ∈ [valueMarker, mergeMarker]) (hne : marker ≠ other) :
    callBody? other (marker ++ body ++ [')']) = none := by
  obtain ⟨start, hstart⟩ := exists_of_mem_markers h'
  rw [Option.eq_none_iff_forall_ne_some]
  intro inner hinner
  obtain ⟨heq, -⟩ := (callBody?_eq_some_iff hstart).1 hinner
  rw [List.append_assoc, List.append_assoc] at heq
  exact hne (marker_unique h h' heq).1

/-- A call without an end is reported as one. -/
theorem stringAction_of_unclosed (h : marker ∈ [valueMarker, mergeMarker])
    (hrest : NeverCloses rest) :
    stringAction d c slot (marker ++ rest) =
      .error [.malformed (.unclosedCall (String.ofList marker.dropLast))
        (c.textPosition (marker.length - 1))] := by
  unfold stringAction
  simp only [find?_open h hrest]

/-- A whole call is computed, if its expression can be. -/
theorem stringAction_of_value (h : IsEnclosed body) :
    stringAction d c slot (valueMarker ++ body ++ [')']) =
      (compileIn d body (c.textPosition valueMarker.length)).map fun f => some (.value f) := by
  have hmarker : valueMarker ∈ [valueMarker, mergeMarker] := List.mem_cons_self
  have hclosed := find?_open_eq_none (not_neverCloses_of_call hmarker h)
  unfold stringAction
  simp only [hclosed, (callBody?_eq_some_iff valueMarker_eq).2 ⟨rfl, h⟩]

/-- A string of items to merge is read as a whole call of this kind only. -/
theorem callBodies_of_merge (h : IsEnclosed body) :
    ([valueMarker, mergeMarker].find? fun marker =>
      marker.isPrefixOf (mergeMarker ++ body ++ [')']) &&
        (callEnd? marker (mergeMarker ++ body ++ [')'])).isNone) = none ∧
      callBody? valueMarker (mergeMarker ++ body ++ [')']) = none ∧
        callBody? mergeMarker (mergeMarker ++ body ++ [')']) = some body := by
  have hmarker : mergeMarker ∈ [valueMarker, mergeMarker] :=
    List.mem_cons_of_mem _ List.mem_cons_self
  refine ⟨find?_open_eq_none (not_neverCloses_of_call hmarker h), ?_, ?_⟩
  · exact callBody?_of_call hmarker List.mem_cons_self (by decide)
  · exact (callBody?_eq_some_iff mergeMarker_eq).2 ⟨rfl, h⟩

/-- Items are merged in an array, if the expression can be computed. -/
theorem stringAction_of_merge (h : IsEnclosed body) (array index : Nat) :
    stringAction d c (some (.item array index)) (mergeMarker ++ body ++ [')']) =
      (compileIn d body (c.textPosition mergeMarker.length)).map fun f => some (.merge f) := by
  obtain ⟨hclosed, hvalue, hmerge⟩ := callBodies_of_merge h
  unfold stringAction
  simp only [hclosed, hvalue, hmerge]

/-- Items are not merged elsewhere, whatever the expression is. -/
theorem stringAction_of_mergeOutside (h : IsEnclosed body)
    (hslot : ∀ array index, slot ≠ some (.item array index)) :
    stringAction d c slot (mergeMarker ++ body ++ [')']) =
      .error [.malformed .mergeOutsideArray c.position] := by
  obtain ⟨hclosed, hvalue, hmerge⟩ := callBodies_of_merge h
  unfold stringAction
  simp only [hclosed, hvalue, hmerge]

end Markers

end DocQuery
