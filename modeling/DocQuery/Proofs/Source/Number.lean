/-
Numbers of JSON texts.

* `NumberParts` — the parts of a number by the JSON grammar: sign, digits, fraction and exponent;
* `NumberParts.IsWellFormed` — the rules of the grammar for these parts;
* `NumberParts.Fits` — the number is an integer of 64 bits, or a finite double;
* `Source.IsNumber` — what is spelled so;
* `Source.Stops` — a text that goes on with no character of a number or of a word;
* `Source.isNumber_iff`, `Source.leading_spelling` — exactly such texts are numerals, and each of
  them is found whole at the start of a text.

Design notes: the scanner takes more than numbers, so what it took is judged again. The two agree
because the parts of a number are runs of digits, each of which ends where another part begins.
-/
import Mathlib.Data.List.TakeWhile
import Mathlib.Tactic.SplitIfs
import DocQuery.Json.Numeral
import DocQuery.Number.Leading
import DocQuery.Proofs.Outcome

namespace DocQuery.Source

open Number

/-- The parts of a number: its sign, the digits before the point, those behind it, and the exponent
from its letter on. -/
structure NumberParts where
  negative : Bool
  whole : List Char
  fraction : List Char
  exponent : List Char

/-- Whether a text is an exponent, or nothing. -/
def IsExponent (cs : List Char) : Prop :=
  cs = [] ∨ ∃ letter sign digits, cs = letter :: (sign ++ digits) ∧ (letter = 'e' ∨ letter = 'E') ∧
    (sign = [] ∨ sign = ['+'] ∨ sign = ['-']) ∧ digits ≠ [] ∧ ∀ c ∈ digits, c.isDigit

namespace NumberParts

/-- The point and the digits behind it, if there are any. -/
def pointed (n : NumberParts) : List Char :=
  if n.fraction = [] then [] else '.' :: n.fraction

/-- What comes behind the digits before the point. -/
def tail (n : NumberParts) : List Char :=
  n.pointed ++ n.exponent

/-- A number as it is written. -/
def spelling (n : NumberParts) : List Char :=
  (if n.negative then ['-'] else []) ++ (n.whole ++ n.tail)

/-- Whether the parts are those of a number: digits without a zero in front, digits behind the
point, and an exponent. -/
structure IsWellFormed (n : NumberParts) : Prop where
  whole_digits : ∀ c ∈ n.whole, c.isDigit
  whole_plain : n.whole = ['0'] ∨ ∃ c cs, n.whole = c :: cs ∧ c ≠ '0'
  fraction_digits : ∀ c ∈ n.fraction, c.isDigit
  exponent : IsExponent n.exponent

/-- Whether a number is an integer of 64 bits or does not exceed the doubles. -/
def Fits (n : NumberParts) : Prop :=
  (n.fraction = [] ∧ n.exponent = [] ∧
    (Numeral.integer? n.negative (decimalValue n.whole)).isSome) ∨
  ∃ exponent, readExponent? n.exponent = some exponent ∧
    let x := (Significand.ofDigits n.whole n.fraction exponent).toFloat
    isFinite (if n.negative then -x else x)

end NumberParts

/-- Whether a text is a number by the JSON grammar that does not overflow. -/
def IsNumber (cs : List Char) : Prop :=
  ∃ n : NumberParts, n.IsWellFormed ∧ n.Fits ∧ cs = n.spelling

/-- Whether a text goes on with white space, with what comes after an entry of a container, or not
at all. -/
def Stops (post : List Char) : Prop :=
  ∀ c ∈ post.head?, Text.isBlank c ∨ c = ',' ∨ c = ']' ∨ c = '}'

theorem not_isNameChar_of_isBlank {c : Char} (h : Text.isBlank c) : Text.isNameChar c = false := by
  have hall : ∀ n ∈ [0x09, 0x0A, 0x0B, 0x0C, 0x0D, 0x20, 0x85, 0xA0, 0x1680, 0x2000, 0x2001,
      0x2002, 0x2003, 0x2004, 0x2005, 0x2006, 0x2007, 0x2008, 0x2009, 0x200A, 0x2028, 0x2029,
      0x202F, 0x205F, 0x3000], Text.isNameChar (Char.ofNat n) = false := by
    -- the tables are gone through as lists
    simp only [Text.isNameChar, Text.isAlphanumeric, Text.isAlphabetic, Text.isNumeric,
      Text.Ranges.contains, ← Array.any_toList]
    decide +kernel
  have hcode := hall c.toNat (by
    simp only [Text.isBlank, Bool.or_eq_true, Bool.and_eq_true, decide_eq_true_eq] at h
    simp only [List.mem_cons, List.not_mem_nil]
    omega)
  rwa [Char.ofNat_toNat] at hcode

theorem isDigit_eq_false_of_isNameChar {c : Char} (h : Text.isNameChar c = false) :
    c.isDigit = false := by
  by_contra hdigit
  rw [Bool.not_eq_false] at hdigit
  have hnine : c.toNat ≤ 57 := (Char.isDigit_iff_toNat.1 hdigit).2
  have hascii : c.toNat < 128 := by omega
  simp [Text.isNameChar, Text.isAlphanumeric, Text.isNumeric, hascii, hdigit] at h

/-- No number and no word goes on where a text stops. -/
theorem Stops.head {c : Char} {post : List Char} (h : Stops (c :: post)) :
    Text.isNameChar c = false ∧ c ≠ '.' := by
  rcases h c rfl with hblank | rfl | rfl | rfl
  · refine ⟨not_isNameChar_of_isBlank hblank, ?_⟩
    rintro rfl
    simp [Text.isBlank] at hblank
  all_goals exact ⟨by decide +kernel, by decide⟩

/-! ### Runs of digits -/

/-- A run of characters ends where one of another sort stands. -/
theorem takeWhile_run {p : Char → Bool} {cs rest : List Char} (h : ∀ c ∈ cs, p c)
    (hrest : ∀ c ∈ rest.head?, p c = false) : (cs ++ rest).takeWhile p = cs := by
  rw [List.takeWhile_append_of_pos h]
  rcases rest with _ | ⟨c, rest⟩
  · simp
  · rw [List.takeWhile_cons_of_neg (by simp [hrest c rfl]), List.append_nil]

theorem dropWhile_run {p : Char → Bool} {cs rest : List Char} (h : ∀ c ∈ cs, p c)
    (hrest : ∀ c ∈ rest.head?, p c = false) : (cs ++ rest).dropWhile p = rest := by
  rw [List.dropWhile_append_of_pos h]
  rcases rest with _ | ⟨c, rest⟩
  · rfl
  · rw [List.dropWhile_cons_of_neg (by simp [hrest c rfl])]

theorem readExponent?_isSome_iff {cs : List Char} :
    (readExponent? cs).isSome ↔ IsExponent cs := by
  constructor
  · intro h
    unfold readExponent? at h
    split at h
    · exact .inl rfl
    · rename_i letter rest
      simp only at h
      split at h
      · rename_i hletter
        have hletter : letter = 'e' ∨ letter = 'E' := by simpa using hletter
        -- the sign is a minus, a plus, or missing
        split at h
        · rename_i digits
          exact .inr ⟨letter, ['-'], digits, rfl, hletter, .inr (.inr rfl), by simpa using h⟩
        · rename_i digits
          exact .inr ⟨letter, ['+'], digits, rfl, hletter, .inr (.inl rfl), by simpa using h⟩
        · exact .inr ⟨letter, [], rest, rfl, hletter, .inl rfl, by simpa using h⟩
      · simp at h
  · rintro (rfl | ⟨letter, sign, digits, rfl, hletter, hsign, hsome, hdigits⟩)
    · rfl
    · have hall : digits.all Char.isDigit := List.all_eq_true.2 hdigits
      rw [readExponent?.eq_def]
      simp only
      rw [if_pos (by simpa using hletter)]
      rcases hsign with rfl | rfl | rfl
      · -- a digit is no sign
        rw [List.nil_append]
        split
        · exact absurd (hdigits '-' List.mem_cons_self) (by decide)
        · exact absurd (hdigits '+' List.mem_cons_self) (by decide)
        · simp [hsome, hall]
      · simp [hsome, hall]
      · simp [hsome, hall]

/-- An exponent begins with no digit and no point. -/
theorem IsExponent.head {cs post : List Char} (h : IsExponent cs) (hpost : Stops post) :
    ∀ c ∈ (cs ++ post).head?, c.isDigit = false ∧ c ≠ '.' ∧ c ≠ 'x' ∧ c ≠ 'X' := by
  intro c hc
  rcases h with rfl | ⟨letter, sign, digits, rfl, hletter, -⟩
  · rcases post with _ | ⟨d, post⟩
    · simp at hc
    · obtain rfl : d = c := by simpa using hc
      obtain ⟨hname, hpoint⟩ := hpost.head
      refine ⟨?_, hpoint, ?_, ?_⟩
      · exact isDigit_eq_false_of_isNameChar hname
      · rintro rfl
        exact absurd hname (by decide)
      · rintro rfl
        exact absurd hname (by decide)
  · obtain rfl : letter = c := by simpa using hc
    rcases hletter with rfl | rfl <;> decide

/-- What comes behind the digits before the point begins with no digit. -/
theorem NumberParts.IsWellFormed.tail_head {n : NumberParts} (h : n.IsWellFormed)
    {post : List Char} (hpost : Stops post) :
    ∀ c ∈ (n.tail ++ post).head?, c.isDigit = false ∧ c ≠ 'x' ∧ c ≠ 'X' := by
  intro c hc
  rw [NumberParts.tail, NumberParts.pointed, List.append_assoc] at hc
  split at hc
  · obtain ⟨hdigit, -, hx⟩ := h.exponent.head hpost c hc
    exact ⟨hdigit, hx⟩
  · obtain rfl : '.' = c := by simpa using hc
    decide

theorem stops_nil : Stops [] := nofun

theorem splitFraction?_tail {n : NumberParts} (h : n.IsWellFormed) :
    Numeral.splitFraction? n.tail = some (n.fraction, n.exponent) := by
  have hhead := h.exponent.head stops_nil
  rw [List.append_nil] at hhead
  rw [NumberParts.tail, NumberParts.pointed]
  split
  · rename_i hnone
    rw [List.nil_append]
    unfold Numeral.splitFraction?
    split
    · rename_i rest heq
      exact absurd rfl (hhead '.' (by rw [heq]; rfl)).2.1
    · rw [hnone]
  · rename_i hsome
    have hdigit : ∀ c ∈ n.exponent.head?, c.isDigit = false := fun c hc => (hhead c hc).1
    rw [List.cons_append, Numeral.splitFraction?, takeWhile_run h.fraction_digits hdigit,
      dropWhile_run h.fraction_digits hdigit,
      if_neg (by simpa using hsome)]

theorem splitFraction?_eq_some {cs fraction tail : List Char}
    (h : Numeral.splitFraction? cs = some (fraction, tail)) :
    (∀ c ∈ fraction, c.isDigit) ∧
      cs = (if fraction = [] then [] else '.' :: fraction) ++ tail := by
  unfold Numeral.splitFraction? at h
  split at h
  · rename_i rest
    simp only at h
    split at h
    · simp at h
    · rename_i hsome
      obtain ⟨rfl, rfl⟩ := Prod.mk.inj (Option.some.inj h)
      refine ⟨fun c hc => List.mem_takeWhile_imp hc, ?_⟩
      rw [if_neg (by simpa using hsome), List.cons_append, List.takeWhile_append_dropWhile]
  · obtain ⟨rfl, rfl⟩ := Prod.mk.inj (Option.some.inj h)
    exact ⟨nofun, rfl⟩

theorem NumberParts.IsWellFormed.spelling_head {n : NumberParts} (h : n.IsWellFormed) :
    ∃ c rest, n.spelling = c :: rest ∧ (c = '-' ∨ c.isDigit) := by
  obtain ⟨c, cs, hcons⟩ : ∃ c cs, n.whole = c :: cs := by
    rcases h.whole_plain with hzero | ⟨c, cs, hcons, -⟩
    · exact ⟨'0', [], hzero⟩
    · exact ⟨c, cs, hcons⟩
  rw [NumberParts.spelling, hcons]
  rcases n.negative with _ | _
  · exact ⟨c, cs ++ n.tail, rfl, .inr (h.whole_digits c (hcons ▸ List.mem_cons_self))⟩
  · exact ⟨'-', c :: cs ++ n.tail, rfl, .inl rfl⟩

/-- The digits before the point have no sign among them. -/
theorem NumberParts.IsWellFormed.ne_minus {n : NumberParts} (h : n.IsWellFormed)
    (post rest : List Char) : n.whole ++ post ≠ '-' :: rest := by
  intro heq
  have hminus : '-' ∈ n.whole := by
    rcases h.whole_plain with hzero | ⟨c, cs, hcons, -⟩
    · rw [hzero] at heq
      simp at heq
    · rw [hcons] at heq ⊢
      obtain rfl : c = '-' := (List.cons.inj heq).1
      exact List.mem_cons_self
  exact absurd (h.whole_digits _ hminus) (by decide)

/-- A sign alone is no number. -/
theorem NumberParts.IsWellFormed.spelling_ne_minus {n : NumberParts} (h : n.IsWellFormed) :
    n.spelling ≠ ['-'] := by
  rw [NumberParts.spelling]
  rcases n.negative with _ | _
  · exact h.ne_minus n.tail []
  · intro heq
    have hnil : n.whole ++ n.tail = [] := (List.cons.inj heq).2
    have hwhole := (List.append_eq_nil_iff.1 hnil).1
    rcases h.whole_plain with hzero | ⟨c, cs, hcons, -⟩
    · simp [hzero] at hwhole
    · simp [hcons] at hwhole

/-- The sign and the rest of the spelling of a number. -/
theorem sign_spelling {n : NumberParts} (h : n.IsWellFormed) :
    (match n.spelling with
      | '-' :: rest => (true, rest)
      | _ => (false, n.spelling)) = (n.negative, n.whole ++ n.tail) := by
  rcases hsign : n.negative with _ | _
  · have hspelling : n.spelling = n.whole ++ n.tail := by
      rw [NumberParts.spelling, hsign]
      rfl
    rw [hspelling]
    split
    · rename_i rest heq
      exact absurd heq (h.ne_minus n.tail rest)
    · rfl
  · rw [NumberParts.spelling, hsign]
    rfl

theorem plainWhole_iff {cs : List Char} :
    Numeral.plainWhole cs ↔ cs = ['0'] ∨ ∃ c rest, cs = c :: rest ∧ c ≠ '0' := by
  unfold Numeral.plainWhole
  split
  · simp
  · simp
  · rename_i rest hrest
    simpa using hrest
  · rename_i hempty hzero hleading
    rcases cs with _ | ⟨c, cs⟩
    · exact absurd rfl hempty
    · simp only [true_iff]
      exact .inr ⟨c, cs, rfl, fun hc => hleading cs (by rw [hc])⟩

/-- The number that the parts of a number spell. -/
theorem read?_spelling {n : NumberParts} (h : n.IsWellFormed) {exponent : Int}
    (hexponent : readExponent? n.exponent = some exponent) :
    Numeral.read? n.spelling =
      let exact := if n.fraction.isEmpty && n.exponent.isEmpty then
          Numeral.integer? n.negative (decimalValue n.whole) else none
      let value := (Significand.ofDigits n.whole n.fraction exponent).toFloat
      exact.orElse fun _ => Numeral.ofDouble? (if n.negative then -value else value) := by
  have hhead : ∀ c ∈ n.tail.head?, c.isDigit = false := fun c hc =>
    (h.tail_head stops_nil c (by rwa [List.append_nil])).1
  unfold Numeral.read?
  split
  rename_i negative magnitude hsign
  obtain ⟨rfl, rfl⟩ := Prod.mk.inj (hsign.symm.trans (sign_spelling h))
  simp only
  rw [takeWhile_run h.whole_digits hhead, dropWhile_run h.whole_digits hhead,
    splitFraction?_tail h, if_neg (by simpa using plainWhole_iff.2 h.whole_plain)]
  simp only [hexponent]

theorem exists_parts_of_read? {cs : List Char} {v : Numeral} (h : Numeral.read? cs = some v) :
    ∃ n : NumberParts, n.IsWellFormed ∧ cs = n.spelling := by
  unfold Numeral.read? at h
  split at h
  rename_i negative magnitude hsign
  have hcs : cs = (if negative then ['-'] else []) ++ magnitude := by
    split at hsign
    · obtain ⟨rfl, rfl⟩ := Prod.mk.inj hsign
      rfl
    · obtain ⟨rfl, rfl⟩ := Prod.mk.inj hsign
      rfl
  simp only at h
  split at h
  · simp at h
  · rename_i hplain
    split at h
    · simp at h
    · rename_i fraction tail hsplit
      split at h
      · simp at h
      · rename_i exponent hexponent
        have hwell : IsExponent tail := readExponent?_isSome_iff.1 (by rw [hexponent]; rfl)
        obtain ⟨hdigits, htail⟩ := splitFraction?_eq_some hsplit
        refine ⟨⟨negative, magnitude.takeWhile Char.isDigit, fraction, tail⟩,
          ⟨fun c hc => List.mem_takeWhile_imp hc, plainWhole_iff.1 (by simpa using hplain), hdigits,
            hwell⟩, ?_⟩
        rw [hcs, NumberParts.spelling, NumberParts.tail, NumberParts.pointed, ← htail,
          List.takeWhile_append_dropWhile]

theorem ofDouble?_isSome_iff {x : Float} : (Numeral.ofDouble? x).isSome ↔ isFinite x := by
  rw [Numeral.ofDouble?]
  split_ifs with h <;> simp [h]

/-- Exactly the numbers of the JSON grammar that do not overflow are numerals. -/
theorem isNumber_iff {cs : List Char} : (Numeral.read? cs).isSome ↔ IsNumber cs := by
  constructor
  · intro h
    obtain ⟨v, hv⟩ := Option.isSome_iff_exists.1 h
    obtain ⟨n, hn, rfl⟩ := exists_parts_of_read? hv
    obtain ⟨exponent, hexponent⟩ :=
      Option.isSome_iff_exists.1 (readExponent?_isSome_iff.2 hn.exponent)
    refine ⟨n, hn, ?_, rfl⟩
    rw [read?_spelling hn hexponent] at h
    simp only [Option.orElse_eq_or, Option.isSome_or, Bool.or_eq_true] at h
    rcases h with hexact | hdouble
    · split_ifs at hexact with hnone
      · simp only [Bool.and_eq_true, List.isEmpty_iff] at hnone
        exact .inl ⟨hnone.1, hnone.2, hexact⟩
      · simp at hexact
    · exact .inr ⟨exponent, hexponent, ofDouble?_isSome_iff.1 hdouble⟩
  · rintro ⟨n, hn, ⟨hfraction, hnone, hexact⟩ | ⟨exponent, hexponent, hfinite⟩, rfl⟩
    · have hexponent : readExponent? n.exponent = some 0 := by
        rw [hnone]
        rfl
      rw [read?_spelling hn hexponent, hfraction, hnone]
      simp only [List.isEmpty_nil, Bool.and_self, if_true, Option.orElse_eq_or, Option.isSome_or,
        hexact, Bool.true_or]
    · rw [read?_spelling hn hexponent]
      simp only [Option.orElse_eq_or, Option.isSome_or, ofDouble?_isSome_iff.2 hfinite,
        Bool.or_true]

/-! ### Numbers at the start of a text -/

theorem leadingFraction_pointed {n : NumberParts} (h : n.IsWellFormed) {post : List Char}
    (hpost : Stops post) : leadingFraction (n.pointed ++ (n.exponent ++ post)) = n.pointed := by
  have hhead := h.exponent.head hpost
  rw [NumberParts.pointed]
  split
  · rw [List.nil_append]
    unfold leadingFraction
    split
    · rename_i rest heq
      exact absurd rfl (hhead '.' (by rw [heq]; rfl)).2.1
    · rfl
  · rename_i hsome
    rw [List.cons_append, leadingFraction,
      takeWhile_run h.fraction_digits fun c hc => (hhead c hc).1]
    split
    · rename_i hnone
      exact absurd hnone hsome
    · rfl

/-- A sign is found in front of digits, and so is a missing one. -/
theorem leadingSign_append {sign digits post : List Char}
    (hsign : sign = [] ∨ sign = ['+'] ∨ sign = ['-']) (hsome : digits ≠ [])
    (hdigits : ∀ c ∈ digits, c.isDigit) : leadingSign (sign ++ (digits ++ post)) = sign := by
  rcases hsign with rfl | rfl | rfl
  · -- digits are no signs
    rcases digits with _ | ⟨d, digits⟩
    · exact absurd rfl hsome
    · have hd := hdigits d List.mem_cons_self
      have hsign : ¬ (d == '+' || d == '-') = true := by
        simp only [Bool.or_eq_true, beq_iff_eq]
        rintro (rfl | rfl) <;> exact absurd hd (by decide)
      rw [leadingSign]
      simp [hsign]
  · rfl
  · rfl

theorem leadingExponent_append {cs : List Char} (h : IsExponent cs) {post : List Char}
    (hpost : Stops post) : leadingExponent (cs ++ post) = cs := by
  rcases h with rfl | ⟨letter, sign, digits, rfl, hletter, hsign, hsome, hdigits⟩
  · rcases post with _ | ⟨c, post⟩
    · rfl
    · have hname := hpost.head.1
      have hc : ¬ (c == 'e' || c == 'E') = true := by
        simp only [Bool.or_eq_true, beq_iff_eq]
        rintro (rfl | rfl) <;> exact absurd hname (by decide)
      rw [List.nil_append, leadingExponent, if_neg hc]
  · have hletter : (letter == 'e' || letter == 'E') = true := by simpa using hletter
    have hpost' : ∀ c ∈ post.head?, c.isDigit = false := fun c hc => by
      rcases post with _ | ⟨d, post⟩
      · simp at hc
      · obtain rfl : d = c := by simpa using hc
        exact isDigit_eq_false_of_isNameChar hpost.head.1
    rw [List.cons_append, List.append_assoc, leadingExponent, if_pos hletter]
    simp only [leadingSign_append hsign hsome hdigits, List.drop_left]
    rw [takeWhile_run hdigits hpost']
    split
    · exact absurd rfl hsome
    · rfl

theorem leadingDecimal_append {n : NumberParts} (h : n.IsWellFormed) {post : List Char}
    (hpost : Stops post) :
    leadingDecimal (n.whole ++ (n.pointed ++ (n.exponent ++ post))) = n.whole ++ n.tail := by
  have hwhole : (n.whole ++ (n.pointed ++ (n.exponent ++ post))).takeWhile Char.isDigit =
      n.whole := by
    refine takeWhile_run h.whole_digits fun c hc => (h.tail_head hpost c ?_).1
    rwa [NumberParts.tail, List.append_assoc]
  have hbehind : (n.whole ++ (n.pointed ++ (n.exponent ++ post))).drop
      (n.whole.length + n.pointed.length) = n.exponent ++ post := by
    rw [← List.drop_drop, List.drop_left, List.drop_left]
  rw [leadingDecimal]
  simp only [hwhole, List.drop_left, leadingFraction_pointed h hpost, hbehind]
  rw [leadingExponent_append h.exponent hpost, NumberParts.tail, List.append_assoc]

theorem leadingMagnitude_append {n : NumberParts} (h : n.IsWellFormed) {post : List Char}
    (hpost : Stops post) :
    leadingMagnitude (n.whole ++ (n.tail ++ post)) = n.whole ++ n.tail := by
  -- behind a single zero no hexadecimal digits can follow
  have hnohex : ∀ x rest, n.whole ++ (n.tail ++ post) = '0' :: x :: rest → x ≠ 'x' ∧ x ≠ 'X' := by
    intro x rest heq
    rcases h.whole_plain with hzero | ⟨c, cs, hcons, hc⟩
    · rw [hzero, List.singleton_append] at heq
      exact (h.tail_head hpost x (by rw [(List.cons.inj heq).2]; rfl)).2
    · rw [hcons] at heq
      exact absurd (List.cons.inj heq).1 hc
  unfold leadingMagnitude
  split
  · rename_i rest heq
    exact absurd rfl (hnohex 'x' rest heq).1
  · rename_i rest heq
    exact absurd rfl (hnohex 'X' rest heq).2
  · rw [NumberParts.tail, List.append_assoc]
    exact leadingDecimal_append h hpost

/-- A number is found whole at the start of a text that stops behind it. -/
theorem leading_spelling {n : NumberParts} (h : n.IsWellFormed) {post : List Char}
    (hpost : Stops post) : Number.leading (n.spelling ++ post) = n.spelling := by
  have hmagnitude := leadingMagnitude_append h hpost
  rw [NumberParts.spelling]
  rcases n.negative with _ | _
  · show Number.leading (n.whole ++ n.tail ++ post) = n.whole ++ n.tail
    rw [List.append_assoc]
    unfold Number.leading
    split
    · rename_i rest heq
      exact absurd heq (h.ne_minus _ rest)
    · exact hmagnitude
  · show '-' :: leadingMagnitude (n.whole ++ n.tail ++ post) = '-' :: (n.whole ++ n.tail)
    rw [List.append_assoc, hmagnitude]

end DocQuery.Source
