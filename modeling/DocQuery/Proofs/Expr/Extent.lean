/-
Where the parts of an expression stand.

* `Position.IsWithin` — a place that is counted to from the beginning of a text, over some of its
  characters;
* `Outcome.Stays` — a computation whose result has a property, or whose fault has a proper place;
* `tokenize_stays` — the tokens of a text stand within it;
* `ExprParser.Keeps` — a parser that puts its trees and its faults where tokens stand;
* `parseExpression_stays`, `compileExpression_stays` — so a tree, a formula or a fault stands within
  the text of its expression;
* `Formula.StandsIn.evaluate_stays` — and a formula fails only where a part of it stands.

Design notes: the lexer makes the places and everything behind it only hands them on. What it counts
are the characters of the text that it is given, so nothing here knows how that text is written in a
document. A formula is compared with itself, with a relation of places that tells the proper ones.
-/
import DocQuery.Proofs.Formula.Relocating
import DocQuery.Proofs.Text.Escaping

namespace DocQuery

/-- Whether a place is counted to from `origin`, where the text `cs` begins, over some of its
characters. -/
def Position.IsWithin (origin : Position) (cs : List Char) (p : Position) : Prop :=
  ∃ passed, passed <+: cs ∧ p = origin.after passed

theorem Position.isWithin_self (origin : Position) (cs : List Char) :
    origin.IsWithin cs origin :=
  ⟨[], List.nil_prefix, rfl⟩

/-! ### Results and faults in their places -/

/-- Whether a computation has a result with the property `R`, or a fault in a place of `S`. -/
structure Outcome.Stays {α : Type} (S : Position → Prop) (R : α → Prop) (x : Except Fault α) :
    Prop where
  result : ∀ a, x = .ok a → R a
  fault : ∀ fault p, x = .error fault → fault.position? = some p → S p

namespace Outcome

variable {α β : Type} {S : Position → Prop} {R : α → Prop} {T : β → Prop} {p : Position}

theorem stays_ok {a : α} (h : R a) : Stays S R (.ok a) :=
  ⟨fun _ ha => Except.ok.inj ha ▸ h, nofun⟩

theorem stays_error {fault : Fault} (h : ∀ p, fault.position? = some p → S p) :
    Stays S R (.error fault) :=
  ⟨nofun, fun _ p hfault hp => h p (Except.error.inj hfault ▸ hp)⟩

theorem stays_malformed (problem : SyntaxProblem) (h : S p) :
    Stays S R (.error (.malformed problem p)) :=
  stays_error fun _ hp => Option.some.inj hp ▸ h

theorem stays_failed (problem : EvaluationProblem) (h : S p) :
    Stays S R (.error (.failed problem p)) :=
  stays_error fun _ hp => Option.some.inj hp ▸ h

theorem Stays.mono {S' : Position → Prop} {R' : α → Prop} {x : Except Fault α} (h : Stays S R x)
    (hS : ∀ p, S p → S' p) (hR : ∀ a, R a → R' a) : Stays S' R' x :=
  ⟨fun a ha => hR a (h.result a ha), fun fault p hfault hp => hS p (h.fault fault p hfault hp)⟩

theorem Stays.bind {x : Except Fault α} {f : α → Except Fault β} (hx : Stays S R x)
    (hf : ∀ a, R a → Stays S T (f a)) : Stays S T (x >>= f) := by
  rcases x with fault | a
  · exact stays_error fun p hp => hx.fault fault p rfl hp
  · exact hf a (hx.result a rfl)

theorem Stays.map {x : Except Fault α} {f : α → β} (hx : Stays S R x) (hf : ∀ a, R a → T (f a)) :
    Stays S T (x.map f) := by
  rcases x with fault | a
  · exact stays_error fun p hp => hx.fault fault p rfl hp
  · exact stays_ok (hf a (hx.result a rfl))

end Outcome

open Outcome

/-! ### Tokens -/

/-- Whether a cursor stands within the text `cs`, which begins at `origin`. -/
def Cursor.IsIn (origin : Position) (cs : List Char) (c : Cursor) : Prop :=
  ∃ passed, cs = passed ++ c.rest ∧ c.position = origin.after passed

namespace Cursor.IsIn

variable {origin : Position} {cs : List Char} {c next : Cursor}

theorem ofText (text : String) (origin : Position) :
    (Cursor.ofText text origin).IsIn origin text.toList :=
  ⟨[], rfl, rfl⟩

theorem pass (h : c.IsIn origin cs) (n : Nat) : (c.pass n).IsIn origin cs := by
  obtain ⟨passed, rfl, hposition⟩ := h
  refine ⟨passed ++ c.rest.take n, ?_, ?_⟩
  · rw [Cursor.pass, List.append_assoc, List.take_append_drop]
  · rw [Cursor.pass, hposition, Position.after_append]

theorem of_isBehind (h : c.IsIn origin cs) (hnext : next.IsBehind c) : next.IsIn origin cs := by
  obtain ⟨n, -, rfl⟩ := hnext
  exact h.pass n

/-- What stands some characters further on stands within the text. -/
theorem isWithin_after (h : c.IsIn origin cs) {passed : List Char} (hpassed : passed <+: c.rest) :
    origin.IsWithin cs (c.position.after passed) := by
  obtain ⟨earlier, rfl, hposition⟩ := h
  refine ⟨earlier ++ passed, (List.prefix_append_right_inj _).2 hpassed, ?_⟩
  rw [hposition, Position.after_append]

theorem isWithin (h : c.IsIn origin cs) : origin.IsWithin cs c.position :=
  h.isWithin_after List.nil_prefix

end Cursor.IsIn

namespace Text

/-- What is wrong with the rest of a string shows behind some of its characters, or at the opening
quote. None of the characters is a line feed. -/
theorem readQuotedRest_eq_error {quote : Char} (hquote : quote = '\'' ∨ quote = '"')
    {fuel offset : Nat} {cs : List Char} {wrong : Misquoted}
    (h : readQuotedRest quote fuel offset cs = .error wrong) :
    wrong.offset = 0 ∨
      ∃ passed, passed <+: cs ∧ '\n' ∉ passed ∧ wrong.offset = offset + passed.length := by
  induction fuel generalizing offset cs with
  | zero =>
    obtain rfl := Except.error.inj h
    exact .inl rfl
  | succ fuel ih =>
    rw [readQuotedRest] at h
    split at h
    · cases h
    · obtain rfl := Except.error.inj h
      exact .inl rfl
    · rename_i problem width hpiece
      obtain rfl := Except.error.inj h
      -- an escape that means nothing shows behind its backslash
      rcases cs with _ | ⟨c, cs⟩
      · cases hpiece
      · rw [nextPiece] at hpiece
        split at hpiece
        · cases hpiece
        · rename_i hline
          exact .inr ⟨[c], ⟨cs, rfl⟩, by simpa using Ne.symm hline, rfl⟩
    · rename_i c width hpiece
      obtain ⟨w, rest, rfl, rfl, hw⟩ := (nextPiece_eq_char_iff hquote).1 hpiece
      rw [List.drop_left] at h
      cases hrest : readQuotedRest quote fuel (offset + w.length) rest with
      | ok quoted =>
        rw [hrest] at h
        cases h
      | error found =>
        rw [hrest] at h
        obtain rfl := Except.error.inj h
        obtain hzero | ⟨passed, hpassed, hline, hoffset⟩ := ih hrest
        · exact .inl hzero
        · refine .inr ⟨w ++ passed, (List.prefix_append_right_inj w).2 hpassed, ?_, ?_⟩
          · rw [List.mem_append, not_or]
            exact ⟨hw.line_feed_not_mem, hline⟩
          · rw [hoffset, List.length_append, Nat.add_assoc]

theorem readQuoted_eq_error {cs : List Char} {wrong : Misquoted}
    (h : readQuoted cs = .error wrong) :
    ∃ passed, passed <+: cs ∧ '\n' ∉ passed ∧ wrong.offset = passed.length := by
  have hstart : ∀ {wrong : Misquoted}, wrong.offset = 0 →
      ∃ passed, passed <+: cs ∧ '\n' ∉ passed ∧ wrong.offset = passed.length := fun hzero =>
    ⟨[], List.nil_prefix, List.not_mem_nil, hzero⟩
  rcases cs with _ | ⟨quote, cs⟩
  · obtain rfl := Except.error.inj h
    exact hstart rfl
  · rw [readQuoted] at h
    split at h
    · rename_i hquote
      have hquote : quote = '\'' ∨ quote = '"' := by simpa using hquote
      obtain hzero | ⟨passed, hpassed, hline, hoffset⟩ := readQuotedRest_eq_error hquote h
      · exact hstart hzero
      · refine ⟨quote :: passed, (List.prefix_cons_inj quote).2 hpassed, ?_, ?_⟩
        · rw [List.mem_cons, not_or]
          exact ⟨by rcases hquote with rfl | rfl <;> decide, hline⟩
        · rw [hoffset, List.length_cons, Nat.add_comm]
    · obtain rfl := Except.error.inj h
      exact hstart rfl

end Text

namespace Cursor

variable {origin : Position} {cs : List Char} {c : Cursor}

theorem readNumber_stays (h : c.IsIn origin cs) :
    Stays (origin.IsWithin cs) (fun r => r.2.IsIn origin cs) (Reading.value c.readNumber) := by
  rw [readNumber]
  split
  · exact stays_malformed _ h.isWithin
  · exact stays_ok (h.pass _)

theorem readName_stays (h : c.IsIn origin cs) :
    Stays (origin.IsWithin cs) (fun r => r.2.IsIn origin cs) (Reading.value c.readName) := by
  rw [readName]
  split
  · exact stays_malformed _ h.isWithin
  · exact stays_ok (h.pass _)

theorem readQuoted_stays (h : c.IsIn origin cs) :
    Stays (origin.IsWithin cs) (fun r => r.2.IsIn origin cs) (Reading.value c.readQuoted) := by
  rw [readQuoted]
  split
  · exact stays_ok (h.pass _)
  · rename_i wrong hwrong
    obtain ⟨passed, hpassed, hline, hoffset⟩ := Text.readQuoted_eq_error hwrong
    refine stays_malformed _ ?_
    rw [hoffset, ← Position.after_eq_shifted hline]
    exact h.isWithin_after hpassed

end Cursor

section Lexing

variable {origin : Position} {cs : List Char} {c : Cursor}

theorem nextToken_stays (h : c.IsIn origin cs) (l : Language) (symbols : List String)
    (first : Char) :
    Stays (origin.IsWithin cs) (fun r => r.2.IsIn origin cs) (nextToken l symbols first c) := by
  unfold nextToken
  split
  · exact (Cursor.readNumber_stays h).bind fun _ hr => stays_ok hr
  split
  · exact (Cursor.readQuoted_stays h).bind fun _ hr => stays_ok hr
  split
  · exact (Cursor.readName_stays h).bind fun _ hr => stays_ok hr
  split
  · rename_i hword
    exact stays_ok (h.of_isBehind (Cursor.passOneOf?_spec hword).2.2.2)
  split
  · exact stays_ok (h.pass 1)
  split
  · rename_i hword
    exact stays_ok (h.of_isBehind (Cursor.passOneOf?_spec hword).2.2.2)
  · exact stays_malformed _ h.isWithin

end Lexing

/-- Whether tokens, and the end of their text, have places of `S`. -/
structure Tokens.StandIn (S : Position → Prop) (ts : Tokens) : Prop where
  tokens : ∀ t ∈ ts.list, S t.position
  finish : S ts.finish

theorem Tokens.StandIn.mono {S S' : Position → Prop} {ts : Tokens} (h : ts.StandIn S)
    (hS : ∀ p, S p → S' p) : ts.StandIn S' :=
  ⟨fun t ht => hS _ (h.tokens t ht), hS _ h.finish⟩

theorem tokensFrom_stays {origin : Position} {cs : List Char} (l : Language)
    (symbols : List String) (fuel : Nat) {c : Cursor} (h : c.IsIn origin cs) :
    Stays (origin.IsWithin cs) (Tokens.StandIn (origin.IsWithin cs))
      (tokensFrom l symbols fuel c) := by
  induction fuel generalizing c with
  | zero => exact stays_ok ⟨fun _ ht => absurd ht List.not_mem_nil, h.isWithin⟩
  | succ fuel ih =>
    have hstart : c.skipBlank.IsIn origin cs := h.pass _
    rw [tokensFrom]
    simp only
    split
    · exact stays_ok ⟨fun _ ht => absurd ht List.not_mem_nil, hstart.isWithin⟩
    · refine (nextToken_stays hstart l symbols _).bind fun r hr => ?_
      refine (ih hr).bind fun rest hrest => stays_ok ⟨?_, hrest.finish⟩
      exact List.forall_mem_cons.2 ⟨hstart.isWithin, hrest.tokens⟩

/-- The tokens of a text stand within it. -/
theorem tokenize_stays (l : Language) (text : String) (origin : Position) :
    Stays (origin.IsWithin text.toList) (Tokens.StandIn (origin.IsWithin text.toList))
      (tokenize l text origin) :=
  tokensFrom_stays l _ _ (.ofText text origin)

/-! ### Trees -/

/-- Whether all parts of a tree have places of `S`. -/
abbrev Expr.StandsIn (S : Position → Prop) (e : Expr) : Prop := e.SameShape (fun p _ => S p) e

namespace Tokens.StandIn

variable {S : Position → Prop} {ts : Tokens}

theorem peek (h : ts.StandIn S) : S ts.peek.position := by
  rw [Tokens.peek, List.headD_eq_head?_getD]
  cases hhead : ts.list.head? with
  | none => exact h.finish
  | some t => exact h.tokens t (List.mem_of_mem_head? hhead)

theorem next (h : ts.StandIn S) : ts.next.StandIn S :=
  ⟨fun t ht => h.tokens t (List.mem_of_mem_drop ht), h.finish⟩

/-- The head of a lambda has its parameters where tokens stand. -/
theorem lambdaHead {parameters : List Parameter} {body : List Token} (h : ts.StandIn S)
    (hhead : lambdaHead? ts.list = some (parameters, body)) :
    (∀ p ∈ parameters, S p.position) ∧ Tokens.StandIn S ⟨body, ts.finish⟩ := by
  obtain ⟨passed, hlist, -, hplaces⟩ := lambdaHead?_spec hhead
  have hall := h.tokens
  rw [hlist] at hall
  refine ⟨fun p hp => ?_, fun t ht => hall t (List.mem_append_right _ ht), h.finish⟩
  obtain ⟨t, ht, hposition⟩ := hplaces p hp
  exact hposition ▸ hall t (List.mem_append_left _ ht)

end Tokens.StandIn

/-- Whether a parser puts its trees and its faults where tokens stand, and leaves only tokens that
stand in such places. -/
def ExprParser.Keeps (S : Position → Prop) (parse : ExprParser) : Prop :=
  ∀ least ts, ts.StandIn S →
    Outcome.Stays S (fun r => r.1.StandsIn S ∧ r.2.StandIn S) (parse least ts)

section Parts

variable {S : Position → Prop} {l : Language} {parse : ExprParser} {ts : Tokens} {p : Position}

theorem parseOperators_stays (hparse : parse.Keeps S) (least : Precedence) (fuel : Nat)
    {left : Expr} (hleft : left.StandsIn S) (h : ts.StandIn S) :
    Stays S (fun r => r.1.StandsIn S ∧ r.2.StandIn S)
      (parseOperators l parse least fuel left ts) := by
  induction fuel generalizing left ts with
  | zero => exact stays_ok ⟨hleft, h⟩
  | succ fuel ih =>
    rw [parseOperators]
    simp only
    split
    · exact ih (.after _ hleft h.peek) h.next
    split
    · exact stays_ok ⟨hleft, h⟩
    · exact (hparse _ _ h.next).bind fun r hr => ih (.binary _ hleft hr.1 h.peek) hr.2

theorem parseMoreArguments_stays (hparse : parse.Keeps S) (close : TokenKind) (hp : S p)
    (fuel : Nat) (h : ts.StandIn S) :
    Stays S (fun r => Expr.AllSameShape (fun p _ => S p) r.1 r.1 ∧ r.2.StandIn S)
      (parseMoreArguments parse close p fuel ts) := by
  induction fuel generalizing ts with
  | zero => exact stays_ok ⟨.nil, h⟩
  | succ fuel ih =>
    rw [parseMoreArguments]
    refine (hparse 0 ts h).bind fun r hr => ?_
    simp only
    split
    · exact (ih hr.2.next).bind fun q hq => stays_ok ⟨.cons hr.1 hq.1, hq.2⟩
    split
    · exact stays_ok ⟨.cons hr.1 .nil, hr.2.next⟩
    split
    · exact stays_malformed _ hp
    · exact stays_malformed _ hr.2.peek

theorem parseArguments_stays (hparse : parse.Keeps S) (close : TokenKind) (hp : S p)
    (h : ts.StandIn S) :
    Stays S (fun r => Expr.AllSameShape (fun p _ => S p) r.1 r.1 ∧ r.2.StandIn S)
      (parseArguments parse close p ts) := by
  rw [parseArguments]
  split
  · exact stays_ok ⟨.nil, h.next⟩
  · exact parseMoreArguments_stays hparse close hp _ h

theorem checkParameters_stays {parameters : List Parameter}
    (h : ∀ q ∈ parameters, S q.position) (earlier : List String) :
    Stays S (fun _ => True) (checkParameters l earlier parameters) := by
  induction parameters generalizing earlier with
  | nil => exact stays_ok trivial
  | cons q parameters ih =>
    obtain ⟨hq, hrest⟩ := List.forall_mem_cons.1 h
    rw [checkParameters]
    split
    · exact stays_malformed _ hq
    split
    · exact stays_malformed _ hq
    · exact ih hrest _

theorem parseLambda_stays (hparse : parse.Keeps S) {parameters : List Parameter}
    (hparameters : ∀ q ∈ parameters, S q.position) (hp : S p) (h : ts.StandIn S) :
    Stays S (fun r => r.1.StandsIn S ∧ r.2.StandIn S) (parseLambda l parse parameters p ts) :=
  (checkParameters_stays hparameters []).bind fun _ _ =>
    (hparse _ _ h).bind fun _ hr => stays_ok ⟨.lambda rfl hr.1 hp, hr.2⟩

theorem parsePrimary_stays (hparse : parse.Keeps S) (h : ts.StandIn S) :
    Stays S (fun r => r.1.StandsIn S ∧ r.2.StandIn S) (parsePrimary l parse ts) := by
  unfold parsePrimary
  simp only
  split
  · exact stays_ok ⟨.number _ h.peek, h.next⟩
  · exact stays_ok ⟨.text _ h.peek, h.next⟩
  · -- the token behind a name tells a lambda, a call and an index from a mere name
    split
    · exact parseLambda_stays hparse (List.forall_mem_singleton.2 h.peek) h.peek h.next.next
    · exact (parseArguments_stays hparse _ h.peek h.next.next).bind fun r hr =>
        stays_ok ⟨.call _ hr.1 h.peek, hr.2⟩
    · refine (parseArguments_stays hparse _ h.peek h.next.next).bind fun r hr => ?_
      split
      · exact stays_malformed _ h.peek
      · exact stays_ok ⟨.index _ hr.1 h.peek, hr.2⟩
    · exact stays_ok ⟨.name _ h.peek, h.next⟩
  · -- a parenthesis opens the parameters of a lambda or a group
    split
    · rename_i hhead
      obtain ⟨hparameters, hbody⟩ := h.next.lambdaHead hhead
      exact parseLambda_stays hparse hparameters h.peek hbody
    · refine (parseArguments_stays hparse _ h.peek h.next).bind fun r hr => ?_
      obtain ⟨arguments, rest⟩ := r
      obtain ⟨harguments, hrest⟩ := hr
      cases harguments with
      | nil => exact stays_malformed _ h.peek
      | cons hinner hmore =>
        cases hmore with
        | nil => exact stays_ok ⟨.group hinner h.peek, hrest⟩
        | cons => exact stays_malformed _ h.peek
  · exact stays_malformed _ h.peek
  · exact stays_malformed _ h.peek

theorem parseOperand_stays (hparse : parse.Keeps S) (h : ts.StandIn S) :
    Stays S (fun r => r.1.StandsIn S ∧ r.2.StandIn S) (parseOperand l parse ts) := by
  rw [parseOperand]
  split
  · split
    · exact parsePrimary_stays hparse h
    · exact (hparse _ _ h.next).bind fun _ hr => stays_ok ⟨.before _ hr.1 h.peek, hr.2⟩
  · exact parsePrimary_stays hparse h

end Parts

theorem parseOperation_keeps (S : Position → Prop) (l : Language) (levels : Nat) :
    ExprParser.Keeps S (parseOperation l levels) := by
  induction levels with
  | zero => exact fun _ _ h => stays_malformed _ h.peek
  | succ levels ih =>
    intro least ts h
    rw [parseOperation]
    exact (parseOperand_stays ih h).bind fun r hr =>
      parseOperators_stays ih least _ hr.1 hr.2

section Depth

variable {S : Position → Prop}

mutual

/-- Where a tree is too deep, a part of it stands. -/
theorem Expr.StandsIn.of_tooDeep? {e : Expr} (h : e.StandsIn S) {levels : Nat} {p : Position}
    (hp : e.tooDeep? levels = some p) : S p := by
  cases levels with
  | zero =>
    rw [tooDeep?] at hp
    exact Option.some.inj hp ▸ h.position
  | succ levels =>
    cases h with
    | name | number | text => cases hp
    | binary _ hleft hright _ =>
      rw [tooDeep?, Option.or_eq_some_iff] at hp
      obtain hp | ⟨-, hp⟩ := hp
      · exact of_tooDeep? hright hp
      · exact of_tooDeep? hleft hp
    | before _ hoperand _ | after _ hoperand _ =>
      rw [tooDeep?] at hp
      exact of_tooDeep? hoperand hp
    | group hinner _ =>
      rw [tooDeep?] at hp
      exact of_tooDeep? hinner hp
    | call _ hes _ | index _ hes _ =>
      rw [tooDeep?] at hp
      exact of_anyTooDeep? hes hp
    | lambda _ hbody _ =>
      rw [tooDeep?] at hp
      exact of_tooDeep? hbody hp

theorem Expr.StandsIn.of_anyTooDeep? {es : List Expr}
    (h : Expr.AllSameShape (fun p _ => S p) es es) {levels : Nat} {p : Position}
    (hp : Expr.anyTooDeep? levels es = some p) : S p := by
  cases h with
  | nil => cases hp
  | cons he hes =>
    rw [anyTooDeep?, Option.or_eq_some_iff] at hp
    obtain hp | ⟨-, hp⟩ := hp
    · exact of_anyTooDeep? hes hp
    · exact of_tooDeep? he hp

end

end Depth

/-- The tree of a text stands within it, or its fault does. -/
theorem parseExpression_stays {S : Position → Prop} {text : String} {origin : Position}
    (hS : ∀ p, origin.IsWithin text.toList p → S p) (l : Language) :
    Stays S (Expr.StandsIn S) (parseExpression l text origin) := by
  rw [parseExpression]
  refine ((tokenize_stays l text origin).mono hS fun ts h => h.mono hS).bind fun ts h => ?_
  split
  · exact stays_malformed _ (hS _ (origin.isWithin_self _))
  · refine (parseOperation_keeps _ l maximalNesting 0 ts h).bind fun r hr => ?_
    simp only
    split
    · exact stays_malformed _ hr.2.peek
    · split
      · rename_i hdeep
        exact stays_malformed _ (hr.1.of_tooDeep? hdeep)
      · exact stays_ok hr.1

/-! ### Formulas -/

open Correspondence

/-- Whether all parts of a formula have places of `S`. -/
abbrev Formula.StandsIn (S : Position → Prop) (f : Formula) : Prop :=
  f.Relocated (fun p _ => S p) f

/-- What is compared with itself has its fault in a proper place. -/
theorem stays_of_outcomes {α : Type} {S : Position → Prop} {R : α → α → Prop} {x : Except Fault α}
    (h : (relocated fun p _ => S p).Outcomes R x x) : Stays S (fun a => R a a) x := by
  rcases x with fault | a
  · cases h with
    | error hfault =>
      refine stays_error fun p hp => ?_
      cases hfault with
      | malformed problem hq | failed problem hq => exact Option.some.inj hp ▸ hq
      | broken => cases hp
  · cases h with
    | ok ha => exact stays_ok ha

/-- The formula of a text stands within it, or its fault does. -/
theorem compileExpression_stays {S : Position → Prop} {text : String} {origin : Position}
    (hS : ∀ p, origin.IsWithin text.toList p → S p) (d : Dialect) :
    Stays S (Formula.StandsIn S) (compileExpression d text origin) :=
  (parseExpression_stays hS d.language).bind fun _ he =>
    stays_of_outcomes (R := Formula.Relocated fun p _ => S p) (he.compile ⟨d, []⟩)

theorem Formula.StandsIn.position {S : Position → Prop} {f : Formula} (h : f.StandsIn S) :
    S f.position :=
  Formula.Corresponds.position h

/-- A formula fails only where a part of it stands. -/
theorem Formula.StandsIn.evaluate_stays {S : Position → Prop} {f : Formula} (h : f.StandsIn S)
    (c : Context) : Stays S (fun _ => True) (evaluate c f).outcome :=
  ⟨fun _ _ => trivial, (stays_of_outcomes (h.outcome c)).fault⟩

end DocQuery
