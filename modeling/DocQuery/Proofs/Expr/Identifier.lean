/-
Expressions that are a single name.

* `Text.IsIdentifier` — a letter or an underscore, and characters of names behind it;
* `tokenize_identifier` — such a text is one token;
* `parseExpression_identifier` — it is the tree of a name, unless it is an operator that stands
  before its operand.

Design notes: a name that is an operator elsewhere is still a name where an operand is expected, so
only the operators before an operand are excluded.
-/
import DocQuery.Expr.Parser
import DocQuery.Proofs.Expr.Lexing
import DocQuery.Proofs.Source.Number

namespace DocQuery

/-- Whether a text is a letter or an underscore with characters of names behind it. -/
def Text.IsIdentifier (name : String) : Prop :=
  ∃ c cs, name.toList = c :: cs ∧ isNameStart c ∧ ∀ d ∈ cs, isNameChar d

variable {l : Language} {name : String} {origin : Position}

theorem Text.isDigit_eq_false_of_isNameStart {c : Char} (h : isNameStart c) :
    c.isDigit = false := by
  by_contra hdigit
  rw [Bool.not_eq_false] at hdigit
  have hrange : 48 ≤ c.toNat ∧ c.toNat ≤ 57 := Char.isDigit_iff_toNat.1 hdigit
  have hall : ∀ n < 58, 48 ≤ n → isNameStart (Char.ofNat n) = false := by
    decide +kernel
  have hcode := hall c.toNat (by omega) hrange.1
  rw [Char.ofNat_toNat] at hcode
  exact Bool.false_ne_true (hcode.symm.trans h)

theorem Text.ne_quote_of_isNameStart {c : Char} (h : isNameStart c) : c ≠ '\'' ∧ c ≠ '"' := by
  constructor
  · rintro rfl
    revert h
    decide +kernel
  · rintro rfl
    revert h
    decide +kernel

theorem Text.isBlank_eq_false_of_isNameChar {c : Char} (h : isNameChar c) : isBlank c = false := by
  by_contra hblank
  rw [Bool.not_eq_false] at hblank
  exact Bool.false_ne_true ((Source.not_isNameChar_of_isBlank hblank).symm.trans h)

namespace Text.IsIdentifier

theorem forall_isNameChar (h : IsIdentifier name) : ∀ c ∈ name.toList, isNameChar c := by
  obtain ⟨c, cs, hname, hstart, hrest⟩ := h
  intro d hd
  rw [hname] at hd
  rcases List.mem_cons.1 hd with rfl | hd
  · exact isNameChar_of_isNameStart hstart
  · exact hrest d hd

end Text.IsIdentifier

/-- A reader of names takes all of an identifier. -/
theorem Cursor.readName_identifier (origin : Position) (h : Text.IsIdentifier name) :
    (Cursor.ofText name origin).readName =
      (.ok name, (Cursor.ofText name origin).pass name.toList.length) := by
  have hrun : (Cursor.ofText name origin).rest.takeWhile Text.isNameChar = name.toList :=
    List.takeWhile_eq_self_iff.2 h.forall_isNameChar
  rw [readName, hrun]
  split
  · rename_i hnil
    obtain ⟨c, cs, hname, -⟩ := h
    exact absurd (hname.symm.trans hnil) (List.cons_ne_nil c cs)
  · rw [String.ofList_toList]

/-- An identifier is one token. -/
theorem tokenize_identifier (l : Language) (origin : Position) (h : Text.IsIdentifier name) :
    ∃ finish, tokenize l name origin = .ok ⟨[⟨.name name, origin⟩], finish⟩ := by
  have hread := Cursor.readName_identifier origin h
  obtain ⟨c, cs, hname, hstart, -⟩ := h
  set start := Cursor.ofText name origin with hcursor
  have hrest : start.rest = c :: cs := hname
  have hblank : start.skipBlank = start := by
    have hfirst := Text.isBlank_eq_false_of_isNameChar (Text.isNameChar_of_isNameStart hstart)
    rw [Cursor.skipBlank, hrest, List.takeWhile_cons_of_neg (by simp [hfirst])]
    rfl
  have hpeek : start.peek = some c := by rw [Cursor.peek, hrest, List.head?_cons]
  have htoken : nextToken l l.symbolOperators c start =
      .ok (.name name, start.pass name.toList.length) := by
    obtain ⟨hsingle, hdouble⟩ := Text.ne_quote_of_isNameStart hstart
    rw [nextToken, Text.isDigit_eq_false_of_isNameStart hstart]
    simp [hsingle, hdouble, hstart, hread, Reading.value, Except.map]
    rfl
  -- nothing is left behind the name
  have hend : (start.pass name.toList.length).skipBlank.peek = none := by
    have hnil : (start.pass name.toList.length).rest = [] := List.drop_length
    rw [Cursor.skipBlank, Cursor.peek, Cursor.pass, hnil, List.drop_nil, List.head?_nil]
  have hlast : tokensFrom l l.symbolOperators (cs.length + 1) (start.pass name.toList.length) =
      .ok ⟨[], (start.pass name.toList.length).skipBlank.position⟩ := by
    rw [tokensFrom]
    simp only [hend]
  refine ⟨(start.pass name.toList.length).skipBlank.position, ?_⟩
  rw [tokenize, ← hcursor, hrest, List.length_cons, tokensFrom, hblank]
  simp only [hpeek]
  exact Except.bind_eq_ok_iff.2 ⟨_, htoken, Except.bind_eq_ok_iff.2 ⟨_, hlast, rfl⟩⟩

/-- An expression that begins with a name and goes on with nothing is that name. -/
theorem parseOperation_name {levels : Nat} {least : Precedence} {finish : Position}
    (h : l.operator? name .before = none) :
    parseOperation l (levels + 1) least ⟨[⟨.name name, origin⟩], finish⟩ =
      .ok (.name name origin, ⟨[], finish⟩) := by
  have hoperator : operatorAt? l .before 0 ⟨[⟨.name name, origin⟩], finish⟩ = none := by
    show (l.operator? name .before).filter _ = none
    rw [h]
    rfl
  have hoperand : parseOperand l (parseOperation l levels) ⟨[⟨.name name, origin⟩], finish⟩ =
      .ok (.name name origin, ⟨[], finish⟩) := by
    rw [parseOperand, hoperator]
    rfl
  exact Except.bind_eq_ok_iff.2 ⟨_, hoperand, rfl⟩

/-- An identifier is the tree of a name, unless it is an operator before an operand. -/
theorem parseExpression_identifier (h : Text.IsIdentifier name)
    (hoperator : l.operator? name .before = none) :
    parseExpression l name origin = .ok (.name name origin) := by
  obtain ⟨finish, htokens⟩ := tokenize_identifier l origin h
  have hparse : parseOperation l maximalNesting 0 ⟨[⟨.name name, origin⟩], finish⟩ =
      .ok (.name name origin, ⟨[], finish⟩) := parseOperation_name hoperator
  refine Except.bind_eq_ok_iff.2 ⟨_, htokens, ?_⟩
  rw [if_neg (by simp)]
  exact Except.bind_eq_ok_iff.2 ⟨_, hparse, rfl⟩

/-- No operator that stands before its operand is spelled like a name. -/
theorem operator?_before_identifier (h : Text.IsIdentifier name) :
    Language.standard.operator? name .before = none := by
  obtain ⟨c, cs, hname, hstart, -⟩ := h
  rw [Language.operator?, List.find?_eq_none]
  intro o ho hmatches
  have hbefore : ∀ o ∈ Language.standardOperators, o.fixity = .before →
      o.name.toList.head?.any Text.isNameStart = false := by
    decide +kernel
  have hspelled : o.name = name ∧ o.fixity = .before := by simpa using hmatches
  have hfalse := hbefore o ho hspelled.2
  rw [hspelled.1, hname, List.head?_cons, Option.any_some, hstart] at hfalse
  exact Bool.false_ne_true hfalse.symm

end DocQuery
