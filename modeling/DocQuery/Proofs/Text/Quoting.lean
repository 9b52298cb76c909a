/-
Strings between quotes, read and written.

* `Text.readQuoted_stable` — whether a string is read does not depend on what comes after it;
* `Text.readQuoted_writeQuoted` — a text that is written between quotes is read again.

Design notes: a piece of a string is settled by the characters that it takes. So the characters
behind it can be cut off, or others put there.
-/
import DocQuery.Json.Text
import DocQuery.Proofs.Outcome
import DocQuery.Text.Quoted

namespace DocQuery

namespace Text

/-! ### Stability -/

theorem take_four_append {cs post : List Char} {n : Nat} (h : 4 ≤ cs.length) (hn : 4 ≤ n) :
    (cs.take n ++ post).take 4 = cs.take 4 := by
  rw [List.take_append_of_le_length (by rw [List.length_take]; omega), List.take_take,
    Nat.min_eq_left hn]

theorem readFourDigits_stable {cs : List Char} {code : Nat} (h : readFourDigits cs = .ok code) :
    4 ≤ cs.length ∧ ∀ n, 4 ≤ n → ∀ post, readFourDigits (cs.take n ++ post) = .ok code := by
  have hlength : 4 ≤ cs.length := by
    rw [readFourDigits] at h
    split at h
    · rename_i hfour
      have hle := (List.takeWhile_prefix isHexDigit (l := cs.take 4)).length_le
      rw [hfour, List.length_take] at hle
      omega
    · simp at h
  refine ⟨hlength, fun n hn post => ?_⟩
  rw [readFourDigits, take_four_append hlength hn]
  exact h

theorem unicodePiece_stable {cs : List Char} {c : Char} {width : Nat}
    (h : unicodePiece cs = .char c width) :
    ∃ n, width = n + 2 ∧ n ≤ cs.length ∧
      ∀ post, unicodePiece (cs.take n ++ post) = .char c width := by
  rw [unicodePiece] at h
  split at h
  · simp at h
  · rename_i code hcode
    obtain ⟨hlength, hstable⟩ := readFourDigits_stable hcode
    split at h
    · rename_i hhigh
      split at h
      · rename_i rest hdrop
        split at h
        · simp at h
        · -- a pair: its second half begins behind the first four digits
          rename_i low hlow
          obtain ⟨hlengthLow, hstableLow⟩ := readFourDigits_stable hlow
          obtain ⟨rfl, rfl⟩ := Piece.char.inj h
          have hten : 10 ≤ cs.length := by
            have heq := congrArg List.length hdrop
            rw [List.length_drop, List.length_cons, List.length_cons] at heq
            omega
          refine ⟨10, rfl, hten, fun post => ?_⟩
          have hbehind : (cs.take 10 ++ post).drop 4 = '\\' :: 'u' :: (rest.take 4 ++ post) := by
            rw [List.drop_append_of_le_length (by rw [List.length_take]; omega), List.drop_take,
              hdrop]
            rfl
          rw [unicodePiece, hstable 10 (by omega)]
          simp only [if_pos hhigh, hbehind, hstableLow 4 (Nat.le_refl _)]
      · simp at h
    · rename_i hhigh
      split at h
      · rename_i hvalid
        obtain ⟨rfl, rfl⟩ := Piece.char.inj h
        refine ⟨4, rfl, hlength, fun post => ?_⟩
        rw [unicodePiece, hstable 4 (Nat.le_refl _)]
        simp only [if_neg hhigh, if_pos hvalid]
      · simp at h

theorem escapePiece_stable {cs : List Char} {c : Char} {width : Nat}
    (h : escapePiece cs = .char c width) :
    ∃ n, width = n + 1 ∧ n ≤ cs.length ∧
      ∀ post, escapePiece (cs.take n ++ post) = .char c width := by
  rcases cs with _ | ⟨d, cs⟩
  · simp [escapePiece] at h
  · rcases eq_or_ne d 'u' with rfl | hd
    · rw [escapePiece] at h
      obtain ⟨n, rfl, hle, hstable⟩ := unicodePiece_stable h
      exact ⟨n + 1, rfl, Nat.succ_le_succ hle, hstable⟩
    · rw [escapePiece.eq_3 d cs hd] at h
      split at h
      · rename_i meaning hmeaning
        obtain ⟨rfl, rfl⟩ := Piece.char.inj h
        refine ⟨1, rfl, Nat.succ_le_succ (Nat.zero_le _), fun post => ?_⟩
        show escapePiece (d :: post) = _
        rw [escapePiece.eq_3 d post hd, hmeaning]
      · simp at h

/-- A piece is settled by the characters that it takes. -/
theorem nextPiece_stable {quote : Char} {cs : List Char} {c : Char} {width : Nat}
    (h : nextPiece quote cs = .char c width) :
    ∃ n, width = n + 1 ∧ width ≤ cs.length ∧
      ∀ post, nextPiece quote (cs.take width ++ post) = .char c width := by
  rcases cs with _ | ⟨d, cs⟩
  · simp [nextPiece] at h
  · rw [nextPiece] at h
    split at h
    · simp at h
    · rename_i hline
      split at h
      · simp at h
      · rename_i hquote
        split at h
        · rename_i hescape
          obtain ⟨n, rfl, hle, hstable⟩ := escapePiece_stable h
          refine ⟨n, rfl, Nat.succ_le_succ hle, fun post => ?_⟩
          show nextPiece quote (d :: (cs.take n ++ post)) = _
          rw [nextPiece, if_neg hline, if_neg hquote, if_pos hescape, hstable]
        · rename_i hplain
          obtain ⟨rfl, rfl⟩ := Piece.char.inj h
          refine ⟨0, rfl, Nat.succ_le_succ (Nat.zero_le _), fun post => ?_⟩
          show nextPiece quote (d :: post) = _
          rw [nextPiece, if_neg hline, if_neg hquote, if_neg hplain]

theorem unicodePiece_ne_close (cs : List Char) : unicodePiece cs ≠ .close := by
  rw [unicodePiece]
  repeat' split
  all_goals nofun

theorem escapePiece_ne_close (cs : List Char) : escapePiece cs ≠ .close := by
  unfold escapePiece
  split
  · nofun
  · exact unicodePiece_ne_close _
  · split <;> nofun

/-- The closing quote stands where the string closes. -/
theorem eq_cons_of_nextPiece_close {quote : Char} {cs : List Char}
    (h : nextPiece quote cs = .close) : ∃ rest, cs = quote :: rest ∧ quote ≠ '\n' := by
  rcases cs with _ | ⟨d, cs⟩
  · simp [nextPiece] at h
  · rw [nextPiece] at h
    split at h
    · simp at h
    · rename_i hline
      split at h
      · rename_i hquote
        exact ⟨cs, by rw [hquote], hquote ▸ hline⟩
      · split at h
        · exact absurd h (escapePiece_ne_close cs)
        · simp at h

/-- The rest of a string is read the same whatever comes after it. -/
theorem readQuotedRest_stable {quote : Char} {fuel offset : Nat} {cs : List Char} {q : Quoted}
    (h : readQuotedRest quote fuel offset cs = .ok q) :
    ∃ n, q.width = offset + n ∧ n ≤ cs.length ∧ ∀ post enough, n ≤ enough →
      readQuotedRest quote enough offset (cs.take n ++ post) = .ok q := by
  induction fuel generalizing offset cs q with
  | zero => simp [readQuotedRest] at h
  | succ fuel ih =>
    rw [readQuotedRest] at h
    split at h
    · rename_i hclose
      obtain rfl := Except.ok.inj h
      obtain ⟨rest, rfl, hline⟩ := eq_cons_of_nextPiece_close hclose
      refine ⟨1, rfl, Nat.succ_le_succ (Nat.zero_le _), fun post enough henough => ?_⟩
      obtain ⟨enough, rfl⟩ : ∃ m, enough = m + 1 := ⟨enough - 1, by omega⟩
      show readQuotedRest quote (enough + 1) offset (quote :: post) = _
      rw [readQuotedRest, nextPiece, if_neg hline, if_pos rfl]
    · simp at h
    · simp at h
    · rename_i c width hpiece
      obtain ⟨k, rfl, hle, hpieces⟩ := nextPiece_stable hpiece
      obtain ⟨rest, hrest, h⟩ := Except.bind_eq_ok_iff.1 h
      obtain rfl := Except.ok.inj h
      obtain ⟨n, hwidth, hn, hstable⟩ := ih hrest
      rw [List.length_drop] at hn
      refine ⟨k + 1 + n, by simp only; omega, by omega, fun post enough henough => ?_⟩
      obtain ⟨enough, rfl⟩ : ∃ m, enough = m + 1 := ⟨enough - 1, by omega⟩
      -- the characters of the piece, then those of the rest
      have hsplit : cs.take (k + 1 + n) ++ post =
          cs.take (k + 1) ++ ((cs.drop (k + 1)).take n ++ post) := by
        rw [List.take_add, List.append_assoc]
      have hdrop : (cs.take (k + 1) ++ ((cs.drop (k + 1)).take n ++ post)).drop (k + 1) =
          (cs.drop (k + 1)).take n ++ post := by
        rw [List.drop_left' (by rw [List.length_take]; omega)]
      rw [hsplit, readQuotedRest, hpieces]
      simp only [hdrop]
      rw [hstable post enough (by omega)]
      rfl

/-- A string is read the same whatever comes after it. -/
theorem readQuoted_stable {cs : List Char} {q : Quoted} (h : readQuoted cs = .ok q) :
    0 < q.width ∧ q.width ≤ cs.length ∧
      ∀ post, readQuoted (cs.take q.width ++ post) = .ok q := by
  rcases cs with _ | ⟨quote, cs⟩
  · simp [readQuoted] at h
  · rw [readQuoted] at h
    split at h
    · rename_i hquote
      obtain ⟨n, hwidth, hle, hstable⟩ := readQuotedRest_stable h
      have hlength : (quote :: cs).length = cs.length + 1 := rfl
      refine ⟨by omega, by omega, fun post => ?_⟩
      rw [hwidth, Nat.add_comm, List.take_succ_cons, List.cons_append, readQuoted, if_pos hquote]
      refine hstable post _ ?_
      rw [List.length_append, List.length_take]
      omega
    · simp at h

/-! ### Written strings -/

theorem readFourDigits_control {code : Nat} (h : code < 0x20) (rest : List Char) :
    readFourDigits ('0' :: '0' :: Json.hexDigit (code / 16) :: Json.hexDigit (code % 16) :: rest) =
      .ok code := by
  have hall : ∀ n < 0x20,
      readFourDigits ['0', '0', Json.hexDigit (n / 16), Json.hexDigit (n % 16)] = .ok n := by
    decide
  exact (readFourDigits_stable (hall code h)).2 4 (Nat.le_refl _) rest

/-- A character is read as it is escaped. -/
theorem nextPiece_escapeChar (c : Char) (rest : List Char) :
    nextPiece '"' (Json.escapeChar c ++ rest) = .char c (Json.escapeChar c).length := by
  unfold Json.escapeChar
  split_ifs with hquote hbackslash hline _ _ hbackspace hfeed hcontrol
  iterate 5
    · subst c
      rfl
  · obtain rfl : c = '\x08' := Char.toNat_inj.1 hbackspace
    rfl
  · obtain rfl : c = '\x0c' := Char.toNat_inj.1 hfeed
    rfl
  · -- four digits, of which the first two are zero
    have hsurrogate : ¬ (0xD800 ≤ c.toNat && c.toNat < 0xDC00) = true := by
      simp only [Bool.and_eq_true, decide_eq_true_eq]
      omega
    have hvalid : c.toNat.isValidChar := c.valid
    show unicodePiece ('0' :: '0' :: _ :: _ :: rest) = _
    rw [unicodePiece, readFourDigits_control hcontrol]
    simp only [if_neg hsurrogate, if_pos hvalid, Char.ofNat_toNat]
    rfl
  · show nextPiece '"' (c :: rest) = _
    rw [nextPiece, if_neg hline, if_neg hquote, if_neg hbackslash]
    rfl

theorem length_escapeChar_pos (c : Char) : 0 < (Json.escapeChar c).length := by
  obtain ⟨n, hn, -⟩ := nextPiece_stable (nextPiece_escapeChar c [])
  omega

theorem readQuotedRest_escaped (cs rest : List Char) (offset : Nat) {fuel : Nat}
    (h : (cs.flatMap Json.escapeChar).length < fuel) :
    ∃ q, readQuotedRest '"' fuel offset (cs.flatMap Json.escapeChar ++ '"' :: rest) = .ok q ∧
      q.text = cs ∧ q.width = offset + (cs.flatMap Json.escapeChar).length + 1 := by
  induction cs generalizing offset fuel with
  | nil =>
    obtain ⟨fuel, rfl⟩ : ∃ m, fuel = m + 1 := ⟨fuel - 1, by omega⟩
    exact ⟨⟨[], [offset], offset + 1⟩, rfl, rfl, rfl⟩
  | cons c cs ih =>
    obtain ⟨fuel, rfl⟩ : ∃ m, fuel = m + 1 := ⟨fuel - 1, by omega⟩
    have hpos := length_escapeChar_pos c
    rw [List.flatMap_cons, List.length_append] at h
    have hrest : (cs.flatMap Json.escapeChar).length < fuel := by omega
    obtain ⟨q, hq, htext, hwidth⟩ := ih (offset + (Json.escapeChar c).length) hrest
    refine ⟨⟨c :: q.text, offset :: q.offsets, q.width⟩, ?_, by rw [htext], ?_⟩
    · rw [List.flatMap_cons, List.append_assoc, readQuotedRest, nextPiece_escapeChar]
      simp only [List.drop_left]
      rw [hq]
      rfl
    · rw [hwidth, List.flatMap_cons, List.length_append]
      omega

/-- A text that is written between quotes is read again. -/
theorem readQuoted_writeQuoted (s : String) :
    ∃ q, readQuoted (Json.writeQuoted s) = .ok q ∧ q.text = s.toList ∧
      q.width = (Json.writeQuoted s).length := by
  have hfuel : (s.toList.flatMap Json.escapeChar).length <
      (s.toList.flatMap Json.escapeChar ++ ['"']).length + 1 := by
    rw [List.length_append]
    omega
  obtain ⟨q, hq, htext, hwidth⟩ := readQuotedRest_escaped s.toList [] 1 hfuel
  refine ⟨q, ?_, htext, ?_⟩
  · show readQuoted ('"' :: (s.toList.flatMap Json.escapeChar ++ ['"'])) = _
    rw [readQuoted, if_pos (by simp)]
    exact hq
  · rw [hwidth, Json.writeQuoted]
    simp only [List.cons_append, List.length_cons, List.length_append, List.length_nil]
    omega

end Text

end DocQuery
