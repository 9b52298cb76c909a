/-
Printing a syntax tree with parentheses around the operands of operators.

* `Expr.print` — the text of a tree;
* `Expr.IsPrintable` — the trees of the standard language, spelled as the lexer reads them;
* `Expr.wrapped` — the tree with a group around every operand, as it is printed;
* `Expr.pieces` — the tokens of the text with their spellings;
* `tokenize_print` — the lexer reads the text as these tokens.

Design notes: blanks stand behind closing parentheses, commas, operators between operands and arrows
only, so every word of the text is followed by a blank, a bracket, a comma or nothing. That is what
the lexer needs to end words where they were printed.
-/
import DocQuery.Proofs.Expr.Spelling

namespace DocQuery

/-! ### Printable trees -/

namespace Expr

/-- Whether a tree is one of the standard language whose names and numbers are spelled as the lexer
reads them. -/
inductive IsPrintable : Expr → Prop
  | name {spelling : String} (p : Position) : Text.IsIdentifier spelling →
    IsPrintable (.name spelling p)
  | number {digits : String} (p : Position) : Text.IsNumeral digits →
    IsPrintable (.number digits p)
  | text (content : String) (p : Position) : IsPrintable (.text content p)
  | binary {o : Operator} {left right : Expr} (p : Position) :
    o ∈ Language.standardOperators → o.fixity = .binary → IsPrintable left → IsPrintable right →
      IsPrintable (.binary o left right p)
  | before {o : Operator} {operand : Expr} (p : Position) :
    o ∈ Language.standardOperators → o.fixity = .before → IsPrintable operand →
      IsPrintable (.before o operand p)
  | after {o : Operator} {operand : Expr} (p : Position) :
    o ∈ Language.standardOperators → o.fixity = .after → IsPrintable operand →
      IsPrintable (.after o operand p)
  | group {inner : Expr} (p : Position) : IsPrintable inner → IsPrintable (.group inner p)
  | call {function : String} {arguments : List Expr} (p : Position) :
    Text.IsIdentifier function → (∀ e ∈ arguments, IsPrintable e) →
      IsPrintable (.call function arguments p)
  | index {array : String} {indexes : List Expr} (p : Position) :
    Text.IsIdentifier array → indexes ≠ [] → (∀ e ∈ indexes, IsPrintable e) →
      IsPrintable (.index array indexes p)
  | lambda {parameters : List Parameter} {body : Expr} (p : Position) :
    (∀ a ∈ parameters, Text.IsIdentifier a.name ∧ Language.standard.isKeyword a.name = false) →
      (parameters.map (·.name)).Nodup → IsPrintable body →
      IsPrintable (.lambda parameters body p)

mutual

/-- The tree with a group around every operand of an operator. -/
def wrapped : Expr → Expr
  | name spelling p => name spelling p
  | number digits p => number digits p
  | text content p => text content p
  | binary o left right p =>
    binary o (group left.wrapped left.position) (group right.wrapped right.position) p
  | before o operand p => before o (group operand.wrapped operand.position) p
  | after o operand p => after o (group operand.wrapped operand.position) p
  | group inner p => group inner.wrapped p
  | call function arguments p => call function (wrappedAll arguments) p
  | index array indexes p => index array (wrappedAll indexes) p
  | lambda parameters body p => lambda parameters body.wrapped p

/-- Several trees with groups around the operands in them. -/
def wrappedAll : List Expr → List Expr
  | [] => []
  | e :: es => e.wrapped :: wrappedAll es

end

/-- Names with commas between them. -/
def printNames : List String → List Char
  | [] => []
  | [word] => word.toList
  | word :: words => word.toList ++ ',' :: ' ' :: printNames words

mutual

/-- The text of a tree, with parentheses around the operands of operators. -/
def print : Expr → List Char
  | name spelling _ => spelling.toList
  | number digits _ => digits.toList
  | text content _ => Json.writeQuoted content
  | binary o left right _ =>
    '(' :: left.print ++ ')' :: ' ' :: o.name.toList ++ ' ' :: '(' :: right.print ++ [')']
  | before o operand _ => o.name.toList ++ '(' :: operand.print ++ [')']
  | after o operand _ => '(' :: operand.print ++ ')' :: ' ' :: o.name.toList
  | group inner _ => '(' :: inner.print ++ [')']
  | call function arguments _ => function.toList ++ '(' :: printAll arguments ++ [')']
  | index array indexes _ => array.toList ++ '[' :: printAll indexes ++ [']']
  | lambda parameters body _ =>
    '(' :: printNames (parameters.map (·.name)) ++ ')' :: ' ' :: '=' :: '>' :: ' ' :: body.print

/-- The text of several trees, with commas between them. -/
def printAll : List Expr → List Char
  | [] => []
  | e :: es => e.print ++ printMore es

/-- The text of several trees, with a comma before each of them. -/
def printMore : List Expr → List Char
  | [] => []
  | e :: es => ',' :: ' ' :: e.print ++ printMore es

end

end Expr

/-! ### The pieces of a printed tree -/

/-- Pieces in parentheses. -/
def Piece.enclosed (xs : List Piece) (blank : List Char) : List Piece :=
  ⟨.leftParen, ['('], []⟩ :: xs ++ [⟨.rightParen, [')'], blank⟩]

/-- The piece of an operator. -/
def Operator.piece (o : Operator) (blank : List Char) : Piece := ⟨o.token, o.name.toList, blank⟩

namespace Expr

/-- The pieces of names with commas between them. -/
def namePieces : List String → List Piece
  | [] => []
  | [word] => [⟨.name word, word.toList, []⟩]
  | word :: words => ⟨.name word, word.toList, []⟩ :: ⟨.comma, [','], [' ']⟩ :: namePieces words

mutual

/-- The tokens of a printed tree with their spellings. -/
def pieces : Expr → List Piece
  | name spelling _ => [⟨.name spelling, spelling.toList, []⟩]
  | number digits _ => [⟨.number digits, digits.toList, []⟩]
  | text content _ => [⟨.text content, Json.writeQuoted content, []⟩]
  | binary o left right _ =>
    Piece.enclosed left.pieces [' '] ++ o.piece [' '] :: Piece.enclosed right.pieces []
  | before o operand _ => o.piece [] :: Piece.enclosed operand.pieces []
  | after o operand _ => Piece.enclosed operand.pieces [' '] ++ [o.piece []]
  | group inner _ => Piece.enclosed inner.pieces []
  | call function arguments _ =>
    ⟨.name function, function.toList, []⟩ :: Piece.enclosed (piecesOfAll arguments) []
  | index array indexes _ =>
    ⟨.name array, array.toList, []⟩ :: ⟨.leftBracket, ['['], []⟩ :: piecesOfAll indexes ++
      [⟨.rightBracket, [']'], []⟩]
  | lambda parameters body _ =>
    Piece.enclosed (namePieces (parameters.map (·.name))) [' '] ++
      ⟨.arrow, ['=', '>'], [' ']⟩ :: body.pieces

/-- The pieces of several trees, with commas between them. -/
def piecesOfAll : List Expr → List Piece
  | [] => []
  | e :: es => e.pieces ++ piecesOfMore es

/-- The pieces of several trees, with a comma before each of them. -/
def piecesOfMore : List Expr → List Piece
  | [] => []
  | e :: es => ⟨.comma, [','], [' ']⟩ :: e.pieces ++ piecesOfMore es

end

theorem join_namePieces (names : List String) :
    Piece.join (namePieces names) = printNames names := by
  fun_induction namePieces names with
  | case1 => rfl
  | case2 name => simp [printNames]
  | case3 name names hne ih =>
    simp [printNames, ih]

mutual

/-- The pieces of a printed tree are cut from its text. -/
theorem join_pieces : (e : Expr) → Piece.join e.pieces = e.print
  | name _ _ | number _ _ | text _ _ => by simp [pieces, print]
  | binary _ left right _ => by
    simp [pieces, print, Piece.enclosed, Operator.piece, join_pieces left, join_pieces right]
  | before _ operand _ | after _ operand _ => by
    simp [pieces, print, Piece.enclosed, Operator.piece, join_pieces operand]
  | group inner _ => by simp [pieces, print, Piece.enclosed, join_pieces inner]
  | call _ arguments _ => by simp [pieces, print, Piece.enclosed, join_piecesOfAll arguments]
  | index _ indexes _ => by simp [pieces, print, join_piecesOfAll indexes]
  | lambda parameters body _ => by
    simp [pieces, print, Piece.enclosed, join_namePieces, join_pieces body]

theorem join_piecesOfAll : (es : List Expr) → Piece.join (piecesOfAll es) = printAll es
  | [] => rfl
  | e :: es => by simp [piecesOfAll, printAll, join_pieces e, join_piecesOfMore es]

theorem join_piecesOfMore : (es : List Expr) → Piece.join (piecesOfMore es) = printMore es
  | [] => rfl
  | e :: es => by simp [piecesOfMore, printMore, join_pieces e, join_piecesOfMore es]

end

end Expr

/-! ### The lexer reads what is printed -/

/-- The only operator of the standard language that is no symbol is a name. -/
theorem standardOperators_spelled : ∀ o ∈ Language.standardOperators,
    o.name = "assert" ∧ o.token = .name o.name ∨
      o.token = .operator o.name ∧ isWord o.name = false ∧ isSymbolic o.name ∧
        fitsAt o.name.toList "=>" = false := by
  decide +kernel

theorem isIdentifier_assert : Text.IsIdentifier "assert" :=
  Text.isIdentifier_of_letters (by decide) (by decide +kernel)

/-- No symbol of the standard language holds a character that ends words. -/
theorem not_mem_of_hasSymbol {s : String} {behind : List Char} (h : Language.standard.HasSymbol s)
    (hbehind : EndsWord behind) : ∀ c ∈ behind.head?, c ∉ s.toList := by
  obtain ⟨⟨o, ho, rfl⟩, -⟩ := h
  have hall : ∀ o ∈ Language.standardOperators,
      ([' ', '(', ')', '[', ']', ','].all fun c => !o.name.toList.contains c) = true := by
    decide +kernel
  intro c hc
  simpa using hbehind.forall_head (hall o ho) c hc

theorem isCut_operator {o : Operator} {behind : List Char} (h : o ∈ Language.standardOperators)
    (hbehind : EndsWord behind) : o.token.IsCut .standard behind o.name.toList := by
  rcases standardOperators_spelled o h with ⟨hname, htoken⟩ | ⟨htoken, hword, hbegins, harrow⟩
  · rw [htoken, hname]
    exact isCut_identifier isIdentifier_assert hbehind
  · have hsymbol : Language.standard.HasSymbol o.name := ⟨⟨o, h, rfl⟩, hword⟩
    rw [htoken]
    refine isCut_symbol hsymbol hbegins harrow fun d hd => ⟨?_, fun s hs => ?_⟩
    · show d ∉ ['=', '>']
      simpa using hbehind.forall_head (p := fun c => ['=', '>'].contains c) (by decide) d hd
    · exact not_mem_of_hasSymbol hs hbehind d hd

namespace Piece

variable {x : Piece} {xs ys : List Piece}

/-- Whether pieces fit before any others that fit and end a word. -/
def Fits (xs : List Piece) : Prop :=
  ∀ ys, Fit .standard ys → EndsWord (join ys) → Fit .standard (xs ++ ys)

/-- What stands behind a piece in a printed text: a blank or nothing. -/
def IsSpaced (x : Piece) : Prop := x.blank = [] ∨ x.blank = [' ']

theorem IsSpaced.blank (h : x.IsSpaced) : ∀ c ∈ x.blank, Text.isBlank c := by
  rcases h with h | h
  · rw [h]
    nofun
  · rw [h]
    exact List.forall_mem_singleton.2 (by decide)

theorem fit_word (hx : x.IsSpaced)
    (hcut : ∀ behind, EndsWord behind → x.kind.IsCut .standard behind x.spelling)
    (hends : x.blank = [] → EndsWord (join ys)) (hys : Fit .standard ys) :
    Fit .standard (x :: ys) := by
  refine .cons hx.blank (hcut _ ?_) hys
  rcases hx with hblank | hblank
  · rw [hblank]
    exact hends hblank
  · rw [hblank]
    exact endsWord_cons (by decide)

theorem fit_mark {c : Char} {kind : TokenKind} {blank : List Char}
    (hx : (⟨kind, [c], blank⟩ : Piece).IsSpaced) (h : punctuation? c = some kind)
    (hys : Fit .standard ys) : Fit .standard (⟨kind, [c], blank⟩ :: ys) := by
  refine .cons hx.blank (isCut_mark h fun d hd => ?_) hys
  obtain rfl : '=' = d := Option.some.inj hd
  rintro rfl
  cases h

/-- Parentheses fit before whatever fits. -/
theorem fit_enclosed (hxs : Fits xs) {blank : List Char} (hblank : blank = [] ∨ blank = [' '])
    (hys : Fit .standard ys) : Fit .standard (enclosed xs blank ++ ys) := by
  rw [enclosed, List.cons_append, List.cons_append, List.append_assoc]
  refine fit_mark (.inl rfl) rfl (hxs _ (fit_mark hblank rfl hys) ?_)
  rw [List.singleton_append, join_cons]
  exact endsWord_cons (by decide)

theorem endsWord_enclosed (xs : List Piece) (blank : List Char) (ys : List Piece) :
    EndsWord (join (enclosed xs blank ++ ys)) := by
  rw [enclosed, List.cons_append, List.cons_append, join_cons]
  exact endsWord_cons (by decide)

theorem fits_single (hx : x.IsSpaced)
    (hcut : ∀ behind, EndsWord behind → x.kind.IsCut .standard behind x.spelling) :
    Fits [x] :=
  fun _ hys hends => fit_word hx hcut (fun _ => hends) hys

end Piece

namespace Expr

open Piece

theorem fits_namePieces {names : List String} (h : ∀ n ∈ names, Text.IsIdentifier n) :
    Fits (namePieces names) := by
  fun_induction namePieces names with
  | case1 => exact fun ys hys _ => hys
  | case2 word => exact fits_single (.inl rfl) fun _ => isCut_identifier (h word (by simp))
  | case3 word words hne ih =>
    intro ys hys hends
    have hrest := ih (fun n hn => h n (List.mem_cons_of_mem _ hn)) ys hys hends
    exact fit_word (.inl rfl) (fun _ => isCut_identifier (h word (by simp)))
      (fun _ => endsWord_cons (by decide)) (fit_mark (.inr rfl) rfl hrest)

/-- The commas between trees end the words before them. -/
theorem fits_piecesOfMore {es : List Expr} (h : ∀ e ∈ es, Fits e.pieces) {ys : List Piece}
    (hys : Fit .standard ys) (hends : EndsWord (join ys)) :
    Fit .standard (piecesOfMore es ++ ys) ∧ EndsWord (join (piecesOfMore es ++ ys)) := by
  induction es with
  | nil => exact ⟨hys, hends⟩
  | cons e es ih =>
    rw [List.forall_mem_cons] at h
    obtain ⟨hfit, hmore⟩ := ih h.2
    rw [piecesOfMore, List.cons_append, List.cons_append, List.append_assoc]
    refine ⟨fit_mark (.inr rfl) rfl (h.1 _ hfit hmore), ?_⟩
    rw [join_cons]
    exact endsWord_cons (by decide)

theorem fits_piecesOfAll {es : List Expr} (h : ∀ e ∈ es, Fits e.pieces) :
    Fits (piecesOfAll es) := by
  intro ys hys hends
  rcases es with _ | ⟨e, es⟩
  · exact hys
  · rw [List.forall_mem_cons] at h
    obtain ⟨hfit, hmore⟩ := fits_piecesOfMore h.2 hys hends
    rw [piecesOfAll, List.append_assoc]
    exact h.1 _ hfit hmore

theorem IsPrintable.fits {e : Expr} (h : e.IsPrintable) : Fits e.pieces := by
  induction h with
  | name p hname => exact fits_single (.inl rfl) fun _ => isCut_identifier hname
  | number p hdigits => exact fits_single (.inl rfl) fun _ => isCut_numeral hdigits
  | text content p => exact fits_single (.inl rfl) fun behind _ => isCut_quoted content behind
  | binary p ho _ _ _ hleft hright =>
    intro ys hys hends
    rw [pieces, List.append_assoc, List.cons_append]
    refine fit_enclosed hleft (.inr rfl) ?_
    exact fit_word (.inr rfl) (fun _ => isCut_operator ho) nofun
      (fit_enclosed hright (.inl rfl) hys)
  | before p ho _ _ hoperand =>
    intro ys hys hends
    rw [pieces, List.cons_append]
    exact fit_word (.inl rfl) (fun _ => isCut_operator ho) (fun _ => endsWord_enclosed _ _ _)
      (fit_enclosed hoperand (.inl rfl) hys)
  | after p ho _ _ hoperand =>
    intro ys hys hends
    rw [pieces, List.append_assoc]
    refine fit_enclosed hoperand (.inr rfl) ?_
    exact fit_word (.inl rfl) (fun _ => isCut_operator ho) (fun _ => hends) hys
  | group p _ hinner => exact fun ys hys _ => fit_enclosed hinner (.inl rfl) hys
  | call p hname _ harguments =>
    intro ys hys hends
    rw [pieces, List.cons_append]
    exact fit_word (.inl rfl) (fun _ => isCut_identifier hname) (fun _ => endsWord_enclosed _ _ _)
      (fit_enclosed (fits_piecesOfAll harguments) (.inl rfl) hys)
  | index p hname _ _ hindexes =>
    intro ys hys hends
    rw [pieces, List.cons_append, List.cons_append, List.append_assoc]
    have hclose : Fit .standard (⟨.rightBracket, [']'], []⟩ :: ys) := fit_mark (.inl rfl) rfl hys
    have hall := fits_piecesOfAll hindexes _ hclose (endsWord_cons (by decide))
    exact fit_word (.inl rfl) (fun _ => isCut_identifier hname)
      (fun _ => endsWord_cons (by decide)) (fit_mark (.inl rfl) rfl hall)
  | lambda p hparameters _ _ hbody =>
    intro ys hys hends
    have hnames := fits_namePieces (List.forall_mem_map.2 fun a ha => (hparameters a ha).1)
    rw [pieces, List.append_assoc, List.cons_append]
    refine fit_enclosed hnames (.inr rfl) (fit_word (.inr rfl) (fun _ _ => ?_) nofun
      (hbody ys hys hends))
    exact .arrow (by decide +kernel) rfl

end Expr

/-- The lexer reads a printed tree as the pieces that it was printed from. -/
theorem tokenize_print {e : Expr} (h : e.IsPrintable) (origin : Position) :
    ∃ ts, tokenize .standard (String.ofList e.print) origin = .ok ts ∧
      ts.kinds = e.pieces.map (·.kind) := by
  have hfit := h.fits [] .nil endsWord_nil
  rw [List.append_nil] at hfit
  refine ⟨_, tokenize_eq_ok_iff.2 ⟨[], e.pieces, nofun, hfit, ?_, rfl⟩, Piece.map_kind_place _ _⟩
  rw [String.toList_ofList, e.join_pieces, List.nil_append]

end DocQuery
