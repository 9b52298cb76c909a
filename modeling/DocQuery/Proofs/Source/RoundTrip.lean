/-
Reading undoes printing.

* `Json.IsPlain` — values whose numbers are integers of 64 bits, whose members stand in the order of
  their names, and whose containers nest only so deep;
* `Json.outline` — the structure of the text of a value;
* `Json.spells_write` — the compact text of a plain value consists of the tokens of its structure;
* `Json.IsPlain.toJson_ofJson` — a plain value that has been given places is itself without them;
* `readJson_compact` — the compact text of a plain value is read as that value.

Design notes: the compact text is one of many texts with the same tokens, so that it is read is a
case of what is known of all of them.
-/
import DocQuery.Proofs.Source.Recognition

namespace DocQuery

/-! ### Integers -/

namespace Number

theorem decimalValue_digitsOf (n : Nat) : decimalValue (digitsOf n) = n := by
  rw [digitsOf, decimalValue, ← Nat.ofDigitChars_eq_foldl]
  exact Nat.ofDigitChars_ten_toDigits

theorem isDigit_of_mem_digitsOf {n : Nat} {c : Char} (h : c ∈ digitsOf n) : c.isDigit :=
  Nat.isDigit_of_mem_toDigits (by decide) (by decide) h

/-- No digits of a number but those of zero begin with a zero. -/
theorem digitsOf_plain (n : Nat) :
    digitsOf n = ['0'] ∨ ∃ c cs, digitsOf n = c :: cs ∧ c ≠ '0' := by
  rcases Nat.eq_zero_or_pos n with rfl | hpos
  · exact .inl (Nat.toDigits_zero 10)
  · right
    induction n using Nat.strong_induction_on with
    | _ n ih =>
      rw [digitsOf, Nat.toDigits_eq_if (by decide)]
      split_ifs with hsmall
      · exact ⟨n.digitChar, [], rfl, by rw [ne_eq, Nat.digitChar_eq_zero]; omega⟩
      · -- the leading digits are those of the tenth part
        obtain ⟨c, cs, hcons, hc⟩ := ih (n / 10) (by omega) (by omega)
        rw [digitsOf] at hcons
        exact ⟨c, cs ++ [(n % 10).digitChar], by rw [hcons]; rfl, hc⟩

end Number

open Number

/-- The parts of the text of an integer. -/
def integerParts (i : Int) : Source.NumberParts where
  negative := decide (i < 0)
  whole := digitsOf i.natAbs
  fraction := []
  exponent := []

theorem integerParts_isWellFormed (i : Int) : (integerParts i).IsWellFormed where
  whole_digits _ h := isDigit_of_mem_digitsOf h
  whole_plain := digitsOf_plain i.natAbs
  fraction_digits := nofun
  exponent := .inl rfl

theorem spelling_integerParts (i : Int) :
    (integerParts i).spelling = Json.writeNumeral (.integer i) := by
  rw [Json.writeNumeral, integerText, Source.NumberParts.spelling]
  show (if decide (i < 0) = true then ['-'] else []) ++ (digitsOf i.natAbs ++ []) = _
  rw [List.append_nil]
  by_cases hneg : i < 0
  · simp [hneg]
  · simp [hneg]

/-- An integer of 64 bits is the number that its text spells. -/
theorem integer?_natAbs {i : Int} (hlow : -Nat.pow 2 63 ≤ i) (hhigh : i < Nat.pow 2 64) :
    Numeral.integer? (decide (i < 0)) (decimalValue (digitsOf i.natAbs)) = some (.integer i) := by
  have hpow63 : Nat.pow 2 63 = 9223372036854775808 := by decide
  have hpow64 : Nat.pow 2 64 = 18446744073709551616 := by decide
  rw [decimalValue_digitsOf, Numeral.integer?, hpow63, hpow64]
  by_cases hneg : i < 0
  · have habs : (-(i.natAbs : Int)) = i := by omega
    rw [if_pos (by simpa using hneg), if_pos (by omega), habs]
  · have habs : (i.natAbs : Int) = i := by omega
    rw [if_neg (by simpa using hneg), if_pos (by omega), habs]

/-- The text of an integer of 64 bits is read as that integer. -/
theorem read?_writeNumeral {i : Int} (hlow : -Nat.pow 2 63 ≤ i) (hhigh : i < Nat.pow 2 64) :
    Numeral.read? (Json.writeNumeral (.integer i)) = some (.integer i) := by
  have hexponent : readExponent? (integerParts i).exponent = some 0 := rfl
  rw [← spelling_integerParts, Source.read?_spelling (integerParts_isWellFormed i) hexponent]
  show (Numeral.integer? (decide (i < 0)) (decimalValue (digitsOf i.natAbs))).orElse _ = _
  rw [integer?_natAbs hlow hhigh]
  rfl

namespace Json

/-! ### Values with a text of their own -/

/-- Whether all numbers of a value are integers of 64 bits, the members of its objects stand in the
order of their names, each name once, and its containers nest at most `levels` deep. -/
inductive IsPlain : Nat → Json → Prop
  | null (levels : Nat) : IsPlain levels .null
  | boolean (levels : Nat) (b : Bool) : IsPlain levels (.boolean b)
  | number (levels : Nat) {i : Int} :
    -Nat.pow 2 63 ≤ i → i < Nat.pow 2 64 → IsPlain levels (.number (.integer i))
  | text (levels : Nat) (s : String) : IsPlain levels (.text s)
  | array {levels : Nat} {items : List Json} :
    (∀ v ∈ items, IsPlain levels v) → IsPlain (levels + 1) (.array items)
  | object {levels : Nat} {members : List (String × Json)} :
    (members.map (·.1)).Pairwise (· < ·) → (∀ m ∈ members, IsPlain levels m.2) →
      IsPlain (levels + 1) (.object members)

mutual

/-- The structure of the text of a value. -/
def outline : Json → Outline
  | .null => .scalar .null
  | .boolean b => .scalar (.ofBool b)
  | .number n => .scalar (.ofNumeral n)
  | .text s => .scalar (.quoted s)
  | .array items => .array (itemOutlines items)
  | .object members => .object (memberOutlines members)

/-- The structures of items. -/
def itemOutlines : List Json → List Outline
  | [] => []
  | value :: items => value.outline :: itemOutlines items

/-- The structures of members. -/
def memberOutlines : List (String × Json) → List (String × Outline)
  | [] => []
  | (name, value) :: members => (name, value.outline) :: memberOutlines members

end

theorem itemOutlines_eq (items : List Json) : itemOutlines items = items.map outline := by
  induction items with
  | nil => rfl
  | cons value items ih => rw [itemOutlines, ih, List.map_cons]

theorem memberOutlines_eq (members : List (String × Json)) :
    memberOutlines members = members.map fun m => (m.1, m.2.outline) := by
  induction members with
  | nil => rfl
  | cons m members ih => rw [memberOutlines, ih, List.map_cons]

mutual

/-- Giving places to a value is giving places to its structure. -/
theorem placed_outline (path : Path) (v : Json) : v.outline.placed path = Node.ofJson path v := by
  match v with
  | .null | .boolean _ | .number _ | .text _ => rfl
  | .array items => rw [outline, Outline.placed, placedItems_outline, Node.ofJson]
  | .object members => rw [outline, Outline.placed, placedMembers_outline, Node.ofJson]

theorem placedItems_outline (path : Path) (index : Nat) (items : List Json) :
    Outline.placedItems path index (itemOutlines items) = Node.itemsOfJson path index items := by
  match items with
  | [] => rfl
  | value :: items =>
    rw [itemOutlines, Outline.placedItems, placed_outline, placedItems_outline, Node.itemsOfJson]

theorem placedMembers_outline (path : Path) (members : List (String × Json)) :
    Outline.placedMembers path (memberOutlines members) = Node.membersOfJson path members := by
  match members with
  | [] => rfl
  | (name, value) :: members =>
    rw [memberOutlines, Outline.placedMembers, placed_outline, placedMembers_outline,
      Node.membersOfJson]

end

theorem IsPlain.fits_outline {levels : Nat} {v : Json} (h : v.IsPlain levels) :
    v.outline.Fits levels := by
  induction h with
  | null | boolean | number | text => exact .scalar _ _
  | @array levels items _ ih =>
    rw [outline, itemOutlines_eq]
    refine .array fun o ho => ?_
    obtain ⟨v, hv, rfl⟩ := List.mem_map.1 ho
    exact ih v hv
  | @object levels members hsorted _ ih =>
    rw [outline, memberOutlines_eq]
    have hnames : (members.map (·.1)).Nodup := hsorted.imp fun {name other} hlt => by
      rintro rfl
      exact String.lt_irrefl name hlt
    refine .object ?_ fun m hm => ?_
    · rw [List.map_map]
      exact hnames
    · obtain ⟨m', hm', rfl⟩ := List.mem_map.1 hm
      exact ih m' hm'

/-! ### The tokens of the compact text -/

theorem spells_mark {x : Char} {ls : List Lexeme} {rest : List Char} (hls : Spells ls rest) :
    Spells (.mark x :: ls) (x :: rest) :=
  spells_token (show (Lexeme.mark x).IsSpelled [x] from rfl) hls

theorem isSpelled_writeQuoted (s : String) : (Lexeme.text s).IsSpelled (writeQuoted s) := by
  obtain ⟨q, hq, htext, hwidth⟩ := Text.readQuoted_writeQuoted s
  exact ⟨rfl, q, hq, hwidth, by rw [htext, String.ofList_toList]⟩

theorem isSpelled_integer {i : Int} (hlow : -Nat.pow 2 63 ≤ i) (hhigh : i < Nat.pow 2 64) :
    (Lexeme.bare (String.ofList (writeNumeral (.integer i)))).IsSpelled
      (writeNumeral (.integer i)) := by
  refine ⟨String.toList_ofList.symm, .inr (Source.isNumber_iff.1 ?_)⟩
  rw [read?_writeNumeral hlow hhigh]
  rfl

mutual

/-- The compact text of a value consists of the tokens of its structure. -/
theorem spells_write {levels : Nat} {v : Json} (h : v.IsPlain levels) :
    Spells v.outline.lexemes v.write := by
  match v with
  | .null => exact spells_single (l := .bare "null") ⟨rfl, .inl (by decide)⟩
  | .boolean true => exact spells_single (l := .bare "true") ⟨rfl, .inl (by decide)⟩
  | .boolean false => exact spells_single (l := .bare "false") ⟨rfl, .inl (by decide)⟩
  | .number n =>
    cases h with
    | number _ hlow hhigh => exact spells_single (isSpelled_integer hlow hhigh)
  | .text s => exact spells_single (isSpelled_writeQuoted s)
  | .array [] => exact spells_mark (spells_single rfl)
  | .array (value :: items) =>
    cases h with
    | array hall =>
      have hvalue := spells_write (hall value List.mem_cons_self)
      have hitems := spells_writeItems fun v hv => hall v (List.mem_cons_of_mem _ hv)
      exact spells_mark (hvalue.append hitems)
  | .object [] => exact spells_mark (spells_single rfl)
  | .object ((name, value) :: members) =>
    cases h with
    | object _ hall =>
      have hvalue : Spells value.outline.lexemes value.write :=
        spells_write (hall (name, value) List.mem_cons_self)
      have hmembers := spells_writeMembers fun m hm => hall m (List.mem_cons_of_mem _ hm)
      rw [write, List.append_assoc]
      exact spells_mark
        (spells_token (isSpelled_writeQuoted name) (spells_mark (hvalue.append hmembers)))

theorem spells_writeItems {levels : Nat} {items : List Json}
    (h : ∀ v ∈ items, IsPlain levels v) :
    Spells (Outline.itemLexemes (itemOutlines items)) (writeItems items) := by
  match items with
  | [] => exact spells_single rfl
  | value :: items =>
    have hvalue := spells_write (h value List.mem_cons_self)
    have hitems := spells_writeItems fun v hv => h v (List.mem_cons_of_mem _ hv)
    exact spells_mark (hvalue.append hitems)

theorem spells_writeMembers {levels : Nat} {members : List (String × Json)}
    (h : ∀ m ∈ members, IsPlain levels m.2) :
    Spells (Outline.memberLexemes (memberOutlines members)) (writeMembers members) := by
  match members with
  | [] => exact spells_single rfl
  | (name, value) :: members =>
    have hvalue : Spells value.outline.lexemes value.write :=
      spells_write (h (name, value) List.mem_cons_self)
    have hmembers := spells_writeMembers fun m hm => h m (List.mem_cons_of_mem _ hm)
    rw [writeMembers, List.append_assoc]
    exact spells_mark
      (spells_token (isSpelled_writeQuoted name) (spells_mark (hvalue.append hmembers)))

end

/-! ### Places and back -/

theorem insertMember_last {name : String} {value : Json} {members : List (String × Json)}
    (h : ∀ m ∈ members, m.1 < name) :
    insertMember name value members = members ++ [(name, value)] := by
  induction members with
  | nil => rfl
  | cons m members ih =>
    have hlt := h m List.mem_cons_self
    have hne : name ≠ m.1 := fun heq => String.lt_irrefl _ (heq ▸ hlt)
    rw [insertMember, if_neg (String.lt_asymm hlt), if_neg hne,
      ih fun m hm => h m (List.mem_cons_of_mem _ hm)]
    rfl

/-- Members in the order of their names stay as they are. -/
theorem ofMembers_sorted {members : List (String × Json)}
    (h : (members.map (·.1)).Pairwise (· < ·)) : ofMembers members = .object members := by
  have hfold : ∀ earlier : List (String × Json),
      ((earlier ++ members).map (·.1)).Pairwise (· < ·) →
        members.foldl (fun sorted m => insertMember m.1 m.2 sorted) earlier =
          earlier ++ members := by
    clear h
    induction members with
    | nil => simp
    | cons m members ih =>
      intro earlier hsorted
      have hlast : ∀ e ∈ earlier, e.1 < m.1 := by
        intro e he
        rw [List.map_append, List.pairwise_append] at hsorted
        exact hsorted.2.2 _ (List.mem_map_of_mem he) _ List.mem_cons_self
      rw [List.foldl_cons, insertMember_last hlast, ih _ (by simpa using hsorted)]
      simp
  rw [ofMembers, hfold [] h]
  rfl

theorem toJson_ofBool (b : Bool) : (Scalar.ofBool b).toJson = .boolean b := by
  cases b <;> rfl

theorem toJson_ofNumeral {i : Int} (hlow : -Nat.pow 2 63 ≤ i) (hhigh : i < Nat.pow 2 64) :
    (Scalar.ofNumeral (.integer i)).toJson = .number (.integer i) := by
  -- an integer is no word, since it begins with a minus or a digit
  have hword : ∀ word ∈ Source.jsonWords, Scalar.ofNumeral (.integer i) ≠ .bare word := by
    obtain ⟨c, rest, hhead, hc⟩ := (integerParts_isWellFormed i).spelling_head
    intro word hword heq
    have htext : writeNumeral (.integer i) = word.toList := by
      rw [← String.toList_ofList (l := writeNumeral _)]
      exact congrArg (fun s => s.text.toList) heq
    rw [← spelling_integerParts, hhead] at htext
    simp only [Source.jsonWords, List.mem_cons, List.not_mem_nil, or_false] at hword
    rcases hword with rfl | rfl | rfl <;>
    · obtain rfl := (List.cons.inj htext).1
      exact absurd hc (by decide)
  have htrue : Scalar.ofNumeral (.integer i) ≠ .ofBool true := hword "true" (by decide)
  have hfalse : Scalar.ofNumeral (.integer i) ≠ .ofBool false := hword "false" (by decide)
  have hnull : Scalar.ofNumeral (.integer i) ≠ .null := hword "null" (by decide)
  have hboolean : (Scalar.ofNumeral (.integer i)).boolean? = none := by
    rw [Scalar.boolean?, if_neg htrue, if_neg hfalse]
  rw [Scalar.toJson, if_neg (by simp [Scalar.ofNumeral, Scalar.bare]),
    if_neg (by simpa [Scalar.isNull] using hnull), hboolean]
  show Scalar.bareJson (String.ofList (writeNumeral (.integer i))) = _
  rw [Scalar.bareJson, String.toList_ofList, read?_writeNumeral hlow hhigh]

mutual

/-- A value that has been given places is itself without them. -/
theorem IsPlain.toJson_ofJson {levels : Nat} {v : Json} (h : v.IsPlain levels) (path : Path) :
    (Node.ofJson path v).toJson = v := by
  match v with
  | .null => rfl
  | .boolean b => exact toJson_ofBool b
  | .number n =>
    cases h with
    | number _ hlow hhigh => exact toJson_ofNumeral hlow hhigh
  | .text s => rfl
  | .array items =>
    cases h with
    | array hall => rw [Node.ofJson, Node.toJson, itemsToJson_ofJson hall]
  | .object members =>
    cases h with
    | object hsorted hall =>
      rw [Node.ofJson, Node.toJson, membersToJson_ofJson hall, ofMembers_sorted hsorted]

theorem itemsToJson_ofJson {levels : Nat} {items : List Json} (h : ∀ v ∈ items, IsPlain levels v)
    (path : Path) (index : Nat) :
    Node.itemsToJson (Node.itemsOfJson path index items) = items := by
  match items with
  | [] => rfl
  | value :: items =>
    have hvalue := h value List.mem_cons_self
    have hitems : ∀ v ∈ items, IsPlain levels v := fun v hv => h v (List.mem_cons_of_mem _ hv)
    rw [Node.itemsOfJson, Node.itemsToJson, hvalue.toJson_ofJson, itemsToJson_ofJson hitems]

theorem membersToJson_ofJson {levels : Nat} {members : List (String × Json)}
    (h : ∀ m ∈ members, IsPlain levels m.2) (path : Path) :
    Node.membersToJson (Node.membersOfJson path members) = members := by
  match members with
  | [] => rfl
  | (name, value) :: members =>
    have hvalue : IsPlain levels value := h (name, value) List.mem_cons_self
    have hmembers : ∀ m ∈ members, IsPlain levels m.2 := fun m hm =>
      h m (List.mem_cons_of_mem _ hm)
    rw [Node.membersOfJson, Node.membersToJson, hvalue.toJson_ofJson,
      membersToJson_ofJson hmembers]

end

end Json

/-- The compact text of a value whose numbers are integers of 64 bits and whose containers nest at
most 128 deep is read. What is read is the value with every part at its place, and without the
places it is the value again. -/
theorem readJson_compact {v : Json} (h : v.IsPlain 128) :
    ∃ s, readJson v.compact = .ok s ∧ ∀ document,
      (Draft.ofSource s).freeze document = Node.ofJson (.root document) v ∧
        ((Draft.ofSource s).freeze document).toJson = v := by
  have hwritten : v.outline.IsWritten v.compact.toList := by
    rw [Json.compact, String.toList_ofList]
    exact ⟨Json.spells_write h, h.fits_outline⟩
  obtain ⟨s, hs, houtline⟩ := exists_readJson hwritten
  refine ⟨s, hs, fun document => ?_⟩
  have hfreeze : (Draft.ofSource s).freeze document = Node.ofJson (.root document) v := by
    rw [Draft.freeze_ofSource (readJson_namesDiffer hs), houtline, Json.placed_outline]
  exact ⟨hfreeze, by rw [hfreeze, h.toJson_ofJson]⟩

theorem readJson_compact_extremes :
    let v : Json := .object
      [("A\"\n", .array [.number (.integer (-9223372036854775808)),
        .number (.integer 18446744073709551615), .boolean true]), ("B\x01", .text "\\ü")]
    v.IsPlain 128 ∧ ∃ s, readJson v.compact = .ok s ∧ ∀ document,
      (Draft.ofSource s).freeze document = Node.ofJson (.root document) v ∧
        ((Draft.ofSource s).freeze document).toJson = v := by
  intro v
  have hplain : v.IsPlain 128 := by
    refine .object (by decide +kernel) ?_
    simp only [List.forall_mem_cons]
    refine ⟨.array ?_, .text _ _, List.forall_mem_nil _⟩
    simp only [List.forall_mem_cons]
    exact ⟨.number _ (by decide) (by decide), .number _ (by decide) (by decide), .boolean _ _,
      List.forall_mem_nil _⟩
  exact ⟨hplain, readJson_compact hplain⟩

end DocQuery
