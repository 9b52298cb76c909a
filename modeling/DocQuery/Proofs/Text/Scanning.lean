/-
A cursor and its place keep step with one another.

* `Cursor.Request`, `Cursor.Request.perform` — everything that a cursor can be asked for, and the
  answer with the cursor that it leaves behind;
* `Cursor.Request.next_eq_iterate` — each of them takes some single steps forward;
* `Position.after_eq` — the place behind a text, by counting its line feeds;
* `Cursor.byteIndex` — the byte of a text at which a cursor stands;
* `Cursor.run_keeps_step` — after any requests, the byte and the place are those behind the
  characters that have been passed.

Design notes: every reader moves by `Cursor.pass`, so what each of them finds does not matter here;
that it may be asked to pass more characters than there are does, because the steps have to be
counted. A failure is no special case: it too leaves a cursor behind.
-/
import Mathlib.Data.List.DropRight
import DocQuery.Proofs.Expr.Extent

namespace DocQuery

/-! ### Places -/

/-- The place behind a text: its line feeds count the lines, and the characters behind the last one
count the columns. -/
theorem Position.after_eq (p : Position) (cs : List Char) :
    p.after cs = ⟨p.line + cs.count '\n',
      if '\n' ∈ cs then 1 + (cs.rtakeWhile (· != '\n')).length else p.column + cs.length⟩ := by
  induction cs using List.reverseRecOn with
  | nil => simp
  | append_singleton cs c ih =>
    rw [after_append, ih, after_cons, after_nil, step]
    by_cases hc : c = '\n'
    · subst hc
      rw [if_pos rfl, if_pos (List.mem_append_right _ (List.mem_singleton_self _)),
        List.rtakeWhile_concat_neg _ _ _ (by simp), List.count_append, List.count_singleton_self]
      rfl
    · have hmem : '\n' ∈ cs ++ [c] ↔ '\n' ∈ cs := by simp [Ne.symm hc]
      have hcount : (cs ++ [c]).count '\n' = cs.count '\n' := by simp [hc]
      rw [if_neg hc, hcount, List.rtakeWhile_concat_pos _ _ _ (by simpa using hc),
        List.length_append, List.length_append, List.length_singleton]
      simp only [hmem]
      split
      · rw [Nat.add_assoc]
      · rw [Nat.add_assoc]

namespace Cursor

/-! ### Requests -/

/-- What a cursor can be asked for. -/
inductive Request where
  /-- the name that comes next -/
  | name
  /-- the spelling of the number that comes next -/
  | number
  /-- the string between quotes that comes next -/
  | quoted
  /-- to pass a character, which has to come next -/
  | expect (d : Char)
  /-- to pass a character if it comes next -/
  | passChar (d : Char)
  /-- to pass a word if it comes next -/
  | passWord (word : String)
  /-- to pass the next character, whatever it is -/
  | advance
  /-- to pass the white space that comes next -/
  | skipBlank
  /-- the next character, without passing it -/
  | peek
  /-- a character further on, without passing any -/
  | peekAt (n : Nat)
  /-- whether a word comes next -/
  | startsWith (word : String)
  /-- whether nothing is left -/
  | atEnd

/-- What a request is answered with. -/
inductive Answer where
  | spelling (found : Except Fault String)
  | quoted (found : Except Fault QuotedText)
  | met (found : Except Fault Unit)
  | flag (holds : Bool)
  | character (next : Option Char)
  | silent

namespace Request

/-- The answer to a request, and the cursor that it leaves behind. -/
def perform (c : Cursor) : Request → Answer × Cursor
  | name => (.spelling c.readName.1, c.readName.2)
  | number => (.spelling c.readNumber.1, c.readNumber.2)
  | quoted => (.quoted c.readQuoted.1, c.readQuoted.2)
  | expect d => (.met (c.expect d).1, (c.expect d).2)
  | passChar d => (.flag (c.passChar? d).isSome, (c.passChar? d).getD c)
  | passWord word => (.flag (c.passWord? word.toList).isSome, (c.passWord? word.toList).getD c)
  | advance => (.character c.peek, c.pass 1)
  | skipBlank => (.silent, c.skipBlank)
  | peek => (.character c.peek, c)
  | peekAt n => (.character (c.peekAt n), c)
  | startsWith word => (.flag (c.startsWith word.toList), c)
  | atEnd => (.flag c.atEnd, c)

/-- The cursor that a request leaves behind. -/
def next (r : Request) (c : Cursor) : Cursor := (r.perform c).2

/-- Whether a request only looks ahead. -/
def IsPeek : Request → Prop
  | peek | peekAt _ | startsWith _ | atEnd => True
  | _ => False

end Request

/-- Whether an answer says that something does not come next, or that nothing does. -/
def Answer.IsRefusal : Answer → Prop
  | .met (.error _) => True
  | .flag false => True
  | .character none => True
  | _ => False

/-- The cursor that some requests leave behind, made one after the other. -/
def run (c : Cursor) (requests : List Request) : Cursor :=
  requests.foldl (fun c r => r.next c) c

variable {c : Cursor} {origin : Position} {cs : List Char}

/-! ### Steps -/

theorem pass_zero (c : Cursor) : c.pass 0 = c := by simp [pass]

theorem pass_pass (c : Cursor) (m n : Nat) : (c.pass m).pass n = c.pass (m + n) := by
  simp only [pass, List.drop_drop, List.take_add, Position.after_append]

/-- No cursor passes more characters than are left. -/
theorem pass_eq_pass_min (c : Cursor) (n : Nat) : c.pass n = c.pass (min n c.rest.length) := by
  rcases Nat.le_total n c.rest.length with h | h
  · rw [Nat.min_eq_left h]
  · rw [Nat.min_eq_right h]
    simp [pass, List.drop_eq_nil_of_le h, List.take_of_length_le h]

/-- Passing characters is passing one after the other. -/
theorem pass_eq_iterate (c : Cursor) (n : Nat) : c.pass n = Request.advance.next^[n] c := by
  induction n generalizing c with
  | zero => exact c.pass_zero
  | succ n ih =>
    have hone : Request.advance.next c = c.pass 1 := rfl
    rw [Function.iterate_succ_apply, ← ih, hone, pass_pass, Nat.add_comm]

theorem exists_pass_of_passWord? (c : Cursor) (word : List Char) :
    ∃ n, (c.passWord? word).getD c = c.pass n := by
  rw [passWord?]
  split
  · exact ⟨word.length, rfl⟩
  · exact ⟨0, c.pass_zero.symm⟩

/-- A character that has to come next is passed like one that may come next. -/
theorem expect_eq (c : Cursor) (d : Char) : c.expect d =
    (if (c.passChar? d).isSome then .ok () else .error (c.fault (.characterExpected d)),
      (c.passChar? d).getD c) := by
  rw [expect]
  split
  · rename_i next hnext
    rw [hnext]
    rfl
  · rename_i hnone
    rw [hnone]
    rfl

namespace Request

/-- A request passes some characters. -/
theorem exists_pass (r : Request) (c : Cursor) : ∃ n, r.next c = c.pass n := by
  cases r with
  | name =>
    show ∃ n, c.readName.2 = c.pass n
    rw [readName]
    split
    · exact ⟨0, c.pass_zero.symm⟩
    · exact ⟨_, rfl⟩
  | number =>
    show ∃ n, c.readNumber.2 = c.pass n
    rw [readNumber]
    split
    · exact ⟨_, rfl⟩
    · exact ⟨_, rfl⟩
  | quoted =>
    show ∃ n, c.readQuoted.2 = c.pass n
    rw [readQuoted]
    split
    · exact ⟨_, rfl⟩
    · exact ⟨_, rfl⟩
  | expect d =>
    show ∃ n, (c.expect d).2 = c.pass n
    rw [expect_eq]
    exact c.exists_pass_of_passWord? [d]
  | passChar d => exact c.exists_pass_of_passWord? [d]
  | passWord word => exact c.exists_pass_of_passWord? word.toList
  | advance => exact ⟨1, rfl⟩
  | skipBlank => exact ⟨_, rfl⟩
  | peek => exact ⟨0, c.pass_zero.symm⟩
  | peekAt n => exact ⟨0, c.pass_zero.symm⟩
  | startsWith word => exact ⟨0, c.pass_zero.symm⟩
  | atEnd => exact ⟨0, c.pass_zero.symm⟩

/-- A request takes single steps forward, no more than there are characters left. -/
theorem next_eq_iterate (r : Request) (c : Cursor) :
    ∃ n ≤ c.rest.length, r.next c = advance.next^[n] c := by
  obtain ⟨n, hn⟩ := r.exists_pass c
  refine ⟨min n c.rest.length, Nat.min_le_right .., ?_⟩
  rw [hn, pass_eq_pass_min, pass_eq_iterate]

theorem next_eq_self_of_isPeek {r : Request} (h : r.IsPeek) (c : Cursor) : r.next c = c := by
  cases r with
  | peek => rfl
  | peekAt n => rfl
  | startsWith word => rfl
  | atEnd => rfl
  | _ => cases h

theorem eq_none_of_isRefusal {α : Type} {next : Option α}
    (h : (Answer.flag next.isSome).IsRefusal) : next = none := by
  cases next with
  | none => rfl
  | some a => cases h

/-- What does not come next is not passed. -/
theorem next_eq_self_of_isRefusal {r : Request} (h : (r.perform c).1.IsRefusal) :
    r.next c = c := by
  cases r with
  | name => cases h
  | number => cases h
  | quoted => cases h
  | skipBlank => cases h
  | expect d =>
    have hnone : c.passChar? d = none := by
      simp only [perform, expect_eq] at h
      split at h
      · cases h
      · rename_i hnot
        exact Option.not_isSome_iff_eq_none.1 hnot
    show (c.expect d).2 = c
    rw [expect_eq, hnone]
    rfl
  | passChar d =>
    show (c.passChar? d).getD c = c
    rw [eq_none_of_isRefusal h]
    rfl
  | passWord word =>
    show (c.passWord? word.toList).getD c = c
    rw [eq_none_of_isRefusal h]
    rfl
  | advance =>
    have hrest : c.rest = [] := by
      simp only [perform, Cursor.peek] at h
      rcases hc : c.rest with _ | ⟨d, rest⟩
      · rfl
      · rw [hc] at h
        cases h
    show c.pass 1 = c
    rw [pass_eq_pass_min, hrest, List.length_nil, Nat.min_zero, pass_zero]
  | peek => rfl
  | peekAt n => rfl
  | startsWith word => rfl
  | atEnd => rfl

end Request

/-! ### Runs -/

theorem IsIn.next (h : c.IsIn origin cs) (r : Request) : (r.next c).IsIn origin cs := by
  obtain ⟨n, hn⟩ := r.exists_pass c
  rw [hn]
  exact h.pass n

/-- Whatever is asked of a cursor, it stands within its text. -/
theorem IsIn.run (h : c.IsIn origin cs) (requests : List Request) :
    (c.run requests).IsIn origin cs := by
  induction requests generalizing c with
  | nil => exact h
  | cons r requests ih => exact ih (h.next r)

/-- The byte of `text` at which a cursor in it stands. -/
def byteIndex (text : String) (c : Cursor) : String.Pos.Raw :=
  ⟨text.utf8ByteSize - (String.ofList c.rest).utf8ByteSize⟩

theorem byteIndex_eq {text : String} {passed : List Char} (h : text.toList = passed ++ c.rest) :
    c.byteIndex text = (String.ofList passed).rawEndPos := by
  have htext : text = String.ofList passed ++ String.ofList c.rest := by
    rw [← String.ofList_append, ← h, String.ofList_toList]
  rw [byteIndex, htext, String.utf8ByteSize_append, Nat.add_sub_cancel]
  rfl

/-- The byte at which a cursor stands begins a character, or it is the end of the text. -/
theorem byteIndex_isValid {text : String} (h : c.IsIn origin text.toList) :
    (c.byteIndex text).IsValid text := by
  obtain ⟨passed, htext, -⟩ := h
  refine String.Pos.Raw.isValid_iff_exists_append.2
    ⟨String.ofList passed, String.ofList c.rest, ?_, byteIndex_eq htext⟩
  rw [← String.ofList_append, ← htext, String.ofList_toList]

/-- A cursor never moves back. -/
theorem byteIndex_le_next (text : String) (c : Cursor) (r : Request) :
    c.byteIndex text ≤ (r.next c).byteIndex text := by
  obtain ⟨n, hn⟩ := r.exists_pass c
  have hrest : String.ofList c.rest =
      String.ofList (c.rest.take n) ++ String.ofList (c.pass n).rest := by
    rw [← String.ofList_append]
    exact congrArg String.ofList (List.take_append_drop n c.rest).symm
  rw [hn, String.Pos.Raw.le_iff, byteIndex, byteIndex, hrest, String.utf8ByteSize_append]
  exact Nat.sub_le_sub_left (Nat.le_add_left ..) _

/-- After any requests, failed ones too, the byte and the place of a cursor are those behind the
characters that it has passed. A further request never moves it back but some single steps forward,
and not at all if it only looks ahead or is refused. -/
theorem run_keeps_step (text : String) (origin : Position) (requests : List Request) :
    let c := (ofText text origin).run requests
    (∃ passed, text.toList = passed ++ c.rest ∧
      c.byteIndex text = (String.ofList passed).rawEndPos ∧ (c.byteIndex text).IsValid text ∧
      c.position.line = origin.line + passed.count '\n' ∧
      c.position.column = if '\n' ∈ passed then 1 + (passed.rtakeWhile (· != '\n')).length
        else origin.column + passed.length) ∧
    ∀ r : Request, c.byteIndex text ≤ (r.next c).byteIndex text ∧
      (∃ n ≤ c.rest.length, r.next c = Request.advance.next^[n] c) ∧
      (r.IsPeek ∨ (r.perform c).1.IsRefusal → r.next c = c) := by
  intro c
  have hin : c.IsIn origin text.toList := (IsIn.ofText text origin).run requests
  obtain ⟨passed, htext, hposition⟩ := hin
  have hplace := hposition.trans (origin.after_eq passed)
  refine ⟨⟨passed, htext, byteIndex_eq htext, byteIndex_isValid ⟨passed, htext, hposition⟩,
    congrArg Position.line hplace, congrArg Position.column hplace⟩, fun r => ?_⟩
  refine ⟨byteIndex_le_next text c r, r.next_eq_iterate c, ?_⟩
  rintro (hpeek | hrefusal)
  · exact Request.next_eq_self_of_isPeek hpeek c
  · exact Request.next_eq_self_of_isRefusal hrefusal

/-- A string that fails on the second line of a text, behind a character of two bytes. What it has
passed is behind the cursor, and what does not come next there is refused. -/
theorem run_keeps_step_failed :
    let c := (ofText "é\n 'x\\q" ⟨4, 10⟩).run [.advance, .skipBlank, .peekAt 2, .quoted]
    c.rest = [] ∧ c.position = ⟨5, 6⟩ ∧ c.byteIndex "é\n 'x\\q" = ⟨8⟩ ∧
      (c.byteIndex "é\n 'x\\q").IsValid "é\n 'x\\q" ∧
      ((Request.expect 'q').perform c).1.IsRefusal ∧ (Request.expect 'q').next c = c := by
  intro c
  have hc : c = ⟨[], ⟨5, 6⟩⟩ := by decide +kernel
  have hrefused : ((Request.expect 'q').perform c).1.IsRefusal := by
    rw [hc]
    trivial
  have hkeeps := run_keeps_step "é\n 'x\\q" ⟨4, 10⟩ [.advance, .skipBlank, .peekAt 2, .quoted]
  obtain ⟨⟨passed, -, -, hvalid, -⟩, hnext⟩ := hkeeps
  obtain ⟨-, -, hrefusal⟩ := hnext (.expect 'q')
  refine ⟨by rw [hc], by rw [hc], ?_, hvalid, hrefused, hrefusal (.inr hrefused)⟩
  rw [hc]
  decide +kernel

end Cursor

end DocQuery
