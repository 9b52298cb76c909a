/-
What the tokens of a text have in common.

* `Position.Before` — one place of a text comes before another;
* `TokenKind.IsSpelled` — names begin with a letter, operators do not, and the end of a text is no
  token;
* `Tokens.WellLexed` — tokens that are spelled so and stand one behind the other;
* `tokenize_wellLexed` — the tokens of every text are.

Design notes: which kind of token comes next is decided by its first character, so a name and a
symbol never have one spelling. Every token takes a character at least, so no two of them share a
place.
-/
import DocQuery.Expr.Lexer
import DocQuery.Proofs.Outcome

namespace DocQuery

namespace Position

/-- Whether `p` comes before `q` in a text. -/
def Before (p q : Position) : Prop :=
  p.line < q.line ∨ (p.line = q.line ∧ p.column < q.column)

theorem Before.trans {p q r : Position} (h : p.Before q) (h' : q.Before r) : p.Before r := by
  unfold Before at *
  omega

theorem Before.ne {p q : Position} (h : p.Before q) : p ≠ q := by
  rintro rfl
  unfold Before at h
  omega

theorem before_step (p : Position) (c : Char) : p.Before (p.step c) := by
  unfold Before step
  split
  · exact .inl (Nat.lt_succ_self _)
  · exact .inr ⟨rfl, Nat.lt_succ_self _⟩

theorem before_after {p : Position} {cs : List Char} (h : cs ≠ []) : p.Before (p.after cs) := by
  induction cs generalizing p with
  | nil => exact absurd rfl h
  | cons c cs ih =>
    rw [after_cons]
    rcases cs with _ | ⟨d, ds⟩
    · exact before_step p c
    · exact (before_step p c).trans (ih (by simp))

theorem eq_or_before_after (p : Position) (cs : List Char) :
    p.after cs = p ∨ p.Before (p.after cs) := by
  rcases cs with _ | ⟨c, cs⟩
  · exact .inl rfl
  · exact .inr (before_after (by simp))

end Position

/-- How a token is spelled: a name begins like one, an operator with another character. -/
def TokenKind.IsSpelled : TokenKind → Prop
  | .name spelling => spelling.toList.head?.any Text.isNameStart = true
  | .operator symbol => symbol.toList.head?.any Text.isNameStart = false
  | .finish => False
  | _ => True

/-- Tokens that are spelled as tokens are, each of them behind those before it. -/
structure Tokens.WellLexed (ts : Tokens) : Prop where
  spelled : ∀ t ∈ ts.list, t.kind.IsSpelled
  ordered : ts.list.Pairwise fun s t => s.position.Before t.position

/-! ### Readers pass what they read -/

namespace Cursor

/-- Whether `d` is the cursor `c` some characters further on, one at least. -/
def IsBehind (d c : Cursor) : Prop := ∃ n, 0 < n ∧ d = c.pass n

theorem IsBehind.before {c d : Cursor} (h : d.IsBehind c) (hc : c.rest ≠ []) :
    c.position.Before d.position := by
  obtain ⟨n, hn, rfl⟩ := h
  refine Position.before_after ?_
  rcases hrest : c.rest with _ | ⟨a, as⟩
  · exact absurd hrest hc
  · obtain ⟨m, rfl⟩ : ∃ m, n = m + 1 := ⟨n - 1, by omega⟩
    simp

theorem passOneOf?_spec {c next : Cursor} {words : List String} {word : String}
    (h : c.passOneOf? words = some (word, next)) :
    word ∈ words ∧ word.toList ≠ [] ∧ word.toList.isPrefixOf c.rest ∧ next.IsBehind c := by
  induction words with
  | nil => simp [passOneOf?] at h
  | cons w ws ih =>
    rw [passOneOf?] at h
    split at h
    · obtain ⟨hmem, hrest⟩ := ih h
      exact ⟨List.mem_cons_of_mem _ hmem, hrest⟩
    · rename_i hne
      split at h
      · rename_i d hd
        simp only [Option.some.injEq, Prod.mk.injEq] at h
        obtain ⟨rfl, rfl⟩ := h
        unfold passWord? at hd
        split at hd
        · rename_i hstarts
          simp only [Option.some.injEq] at hd
          refine ⟨by simp, hne, hstarts, w.toList.length, ?_, hd.symm⟩
          exact List.length_pos_of_ne_nil hne
        · simp at hd
      · obtain ⟨hmem, hrest⟩ := ih h
        exact ⟨List.mem_cons_of_mem _ hmem, hrest⟩

end Cursor

theorem Reading.value_eq_ok_iff {α : Type} {r : Reading α} {a : α} {c : Cursor} :
    Reading.value r = .ok (a, c) ↔ r = (.ok a, c) := by
  rcases r with ⟨outcome, d⟩
  rcases outcome with e | b <;> simp [Reading.value, Except.map]

theorem Text.readQuotedRest_width_pos {quote : Char} {fuel offset : Nat} {cs : List Char}
    {q : Text.Quoted} (h : Text.readQuotedRest quote fuel offset cs = .ok q) : 0 < q.width := by
  induction fuel generalizing offset cs q with
  | zero => simp [Text.readQuotedRest] at h
  | succ fuel ih =>
    rw [Text.readQuotedRest] at h
    split at h
    · cases h
      exact Nat.succ_pos _
    · simp at h
    · simp at h
    · obtain ⟨rest, hrest, h⟩ := Except.bind_eq_ok_iff.mp h
      cases h
      exact (ih hrest : 0 < rest.width)

namespace Cursor

theorem readQuoted_isBehind {c next : Cursor} {q : QuotedText}
    (h : c.readQuoted = (.ok q, next)) : next.IsBehind c := by
  unfold readQuoted at h
  split at h
  · rename_i quoted hquoted
    simp only [Prod.mk.injEq] at h
    refine ⟨quoted.width, ?_, h.2.symm⟩
    unfold Text.readQuoted at hquoted
    split at hquoted
    · simp at hquoted
    · split at hquoted
      · exact Text.readQuotedRest_width_pos hquoted
      · simp at hquoted
  · simp at h

theorem readNumber_isBehind {c next : Cursor} {digits : String}
    (h : c.readNumber = (.ok digits, next)) : next.IsBehind c := by
  unfold readNumber at h
  simp only at h
  split at h
  · simp at h
  · rename_i hne
    simp only [Prod.mk.injEq] at h
    refine ⟨(Number.leading c.rest).length, ?_, h.2.symm⟩
    simp only [Bool.or_eq_true, decide_eq_true_eq, not_or] at hne
    exact List.length_pos_of_ne_nil hne.1

theorem readName_spec {c next : Cursor} {name : String} (h : c.readName = (.ok name, next)) :
    name.toList = c.rest.takeWhile Text.isNameChar ∧ next.IsBehind c := by
  unfold readName at h
  split at h
  · simp at h
  · rename_i hne
    simp only [Prod.mk.injEq, Except.ok.injEq] at h
    obtain ⟨rfl, rfl⟩ := h
    exact ⟨String.toList_ofList, _, List.length_pos_of_ne_nil hne, rfl⟩

end Cursor

theorem Text.isNameChar_of_isNameStart {c : Char} (h : Text.isNameStart c) :
    Text.isNameChar c := by
  unfold Text.isNameStart at h
  unfold Text.isNameChar Text.isAlphanumeric
  rcases Bool.or_eq_true_iff.mp h with h | h <;> simp [h]

/-! ### Tokens -/

/-- A symbol that a text begins with is spelled as an operator if no name begins there. -/
theorem isSpelled_operator {symbol : String} {first : Char} {cs : List Char}
    (hne : symbol.toList ≠ []) (hstarts : symbol.toList.isPrefixOf (first :: cs))
    (hstart : ¬ Text.isNameStart first) : (TokenKind.operator symbol).IsSpelled := by
  rcases hsymbol : symbol.toList with _ | ⟨a, as⟩
  · exact absurd hsymbol hne
  · rw [hsymbol, List.isPrefixOf_cons_cons] at hstarts
    have ha : a = first := by simpa using (Bool.and_eq_true_iff.mp hstarts).1
    simpa [TokenKind.IsSpelled, hsymbol, ha] using hstart

/-- The next token takes a character at least, and is spelled as a token is. -/
theorem nextToken_spec {l : Language} {symbols : List String} {first : Char} {c next : Cursor}
    {kind : TokenKind} (hfirst : c.peek = some first)
    (h : nextToken l symbols first c = .ok (kind, next)) : kind.IsSpelled ∧ next.IsBehind c := by
  obtain ⟨cs, hcs⟩ : ∃ cs, c.rest = first :: cs := by
    rcases hrest : c.rest with _ | ⟨a, as⟩
    · simp [Cursor.peek, hrest] at hfirst
    · simp only [Cursor.peek, hrest, List.head?_cons, Option.some.injEq] at hfirst
      exact ⟨as, by rw [hfirst]⟩
  -- the readers are tried in the order of the lexer, and each takes a character at least
  unfold nextToken at h
  split at h
  · obtain ⟨⟨digits, d⟩, hread, h⟩ := Except.bind_eq_ok_iff.mp h
    cases h
    exact ⟨trivial, Cursor.readNumber_isBehind (Reading.value_eq_ok_iff.mp hread)⟩
  · split at h
    · obtain ⟨⟨quoted, d⟩, hread, h⟩ := Except.bind_eq_ok_iff.mp h
      cases h
      exact ⟨trivial, Cursor.readQuoted_isBehind (Reading.value_eq_ok_iff.mp hread)⟩
    · split at h
      · rename_i hstart
        obtain ⟨⟨name, d⟩, hread, h⟩ := Except.bind_eq_ok_iff.mp h
        cases h
        obtain ⟨hname, hbehind⟩ := Cursor.readName_spec (Reading.value_eq_ok_iff.mp hread)
        refine ⟨?_, hbehind⟩
        have hchar := Text.isNameChar_of_isNameStart hstart
        simp [TokenKind.IsSpelled, hname, hcs, hchar, hstart]
      · rename_i hstart
        split at h
        · rename_i hword
          cases h
          exact ⟨trivial, (Cursor.passOneOf?_spec hword).2.2.2⟩
        · split at h
          · rename_i hkind
            cases h
            refine ⟨?_, 1, Nat.one_pos, rfl⟩
            unfold punctuation? at hkind
            split at hkind <;> cases hkind <;> trivial
          · split at h
            · rename_i hword
              cases h
              obtain ⟨-, hne, hstarts, hbehind⟩ := Cursor.passOneOf?_spec hword
              rw [hcs] at hstarts
              exact ⟨isSpelled_operator hne hstarts hstart, hbehind⟩
            · simp at h

theorem tokensFrom_spec {l : Language} {symbols : List String} {fuel : Nat} {c : Cursor}
    {ts : Tokens} (h : tokensFrom l symbols fuel c = .ok ts) :
    ts.WellLexed ∧ ∀ t ∈ ts.list, c.position = t.position ∨ c.position.Before t.position := by
  induction fuel generalizing c ts with
  | zero =>
    cases h
    exact ⟨⟨by simp, by simp⟩, by simp⟩
  | succ fuel ih =>
    rw [tokensFrom] at h
    have hblank := Position.eq_or_before_after c.position
      (c.rest.take (c.rest.takeWhile Text.isBlank).length)
    change c.skipBlank.position = c.position ∨ c.position.Before c.skipBlank.position at hblank
    generalize hstart : c.skipBlank = start at h hblank
    simp only at h
    split at h
    · cases h
      exact ⟨⟨by simp, by simp⟩, by simp⟩
    · rename_i first hfirst
      obtain ⟨⟨kind, next⟩, hnext, h⟩ := Except.bind_eq_ok_iff.mp h
      obtain ⟨rest, hrest, h⟩ := Except.bind_eq_ok_iff.mp h
      cases h
      obtain ⟨hspelled, hbehind⟩ := nextToken_spec hfirst hnext
      obtain ⟨hwell, hlater⟩ := ih hrest
      have hne : start.rest ≠ [] := by
        intro hnil
        simp [Cursor.peek, hnil] at hfirst
      -- later tokens stand at the end of this one or behind it
      have hbefore : ∀ t ∈ rest.list, start.position.Before t.position := by
        intro t ht
        rcases hlater t ht with heq | hlt
        · exact heq ▸ hbehind.before hne
        · exact (hbehind.before hne).trans hlt
      refine ⟨⟨?_, ?_⟩, ?_⟩
      · intro t ht
        rcases List.mem_cons.mp ht with rfl | ht
        · exact hspelled
        · exact hwell.spelled t ht
      · exact List.pairwise_cons.mpr ⟨hbefore, hwell.ordered⟩
      · intro t ht
        rcases List.mem_cons.mp ht with rfl | ht
        · exact hblank.imp_left Eq.symm
        · rcases hblank with heq | hlt
          · exact .inr (heq ▸ hbefore t ht)
          · exact .inr (hlt.trans (hbefore t ht))

/-- The tokens of every text are spelled as tokens are and stand one behind the other. -/
theorem tokenize_wellLexed {l : Language} {text : String} {origin : Position} {ts : Tokens}
    (h : tokenize l text origin = .ok ts) : ts.WellLexed :=
  (tokensFrom_spec h).1

end DocQuery
