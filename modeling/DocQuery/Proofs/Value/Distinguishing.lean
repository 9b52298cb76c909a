/-
Values that are told apart by their text.

* `Node.IsExact` — all numbers in a value are integers of 64 bits;
* `Json.compact_injective` — different values of such numbers have different texts;
* `Node.IsExact.compact_eq_iff` — so exact values are equal as JSON if their texts are;
* `Arrangement.exists_positions` — the items that are left of a list are the first of their text;
* `Arrangement.distinct_keeps_firsts` — for exact values, the first of each JSON value.

Design notes: the text of a value is read as that value at any depth of nesting, so nothing else can
have this text. What becomes of a list is settled item by item from the front, and what has been
kept is not touched any more, so the statements about lists go by induction on the last item.
-/
import DocQuery.Formula.View
import DocQuery.Proofs.Source.RoundTrip
import DocQuery.Proofs.Value.Sorting
import Mathlib.Data.List.Induction

namespace DocQuery

/-! ### Texts of values -/

/-- An integer that is read has 64 bits. -/
theorem Numeral.range_of_read? {cs : List Char} {i : Int} (h : read? cs = some (.integer i)) :
    -Nat.pow 2 63 ≤ i ∧ i < Nat.pow 2 64 := by
  have hpow63 : Nat.pow 2 63 = 9223372036854775808 := by decide
  have hpow64 : Nat.pow 2 64 = 18446744073709551616 := by decide
  have hdouble : ∀ x : Float, ofDouble? x ≠ some (.integer i) := by
    intro x hx
    rw [ofDouble?] at hx
    split at hx <;> cases hx
  unfold read? at h
  split at h
  simp only at h
  split at h
  · cases h
  · split at h
    · cases h
    · split at h
      · cases h
      · simp only [Option.orElse_eq_or] at h
        rcases Option.or_eq_some_iff.1 h with hexact | ⟨-, hx⟩
        · split at hexact
          · rw [integer?, hpow63, hpow64] at hexact
            split at hexact <;> split at hexact <;> cases hexact <;> omega
          · cases hexact
        · exact absurd hx (hdouble _)

namespace Json

variable {v w : Json} {levels more : Nat}

theorem IsPlain.mono (h : v.IsPlain levels) (hle : levels ≤ more) : v.IsPlain more := by
  induction h generalizing more with
  | null => exact .null _
  | boolean _ b => exact .boolean _ b
  | number _ hlow hhigh => exact .number _ hlow hhigh
  | text _ s => exact .text _ s
  | array _ ih =>
    obtain ⟨more, rfl⟩ : ∃ n, more = n + 1 := ⟨more - 1, by omega⟩
    exact .array fun v hv => ih v hv (by omega)
  | object hsorted _ ih =>
    obtain ⟨more, rfl⟩ : ∃ n, more = n + 1 := ⟨more - 1, by omega⟩
    exact .object hsorted fun m hm => ih m hm (by omega)

/-- Several plain values nest at most so deep as the deepest of them. -/
theorem exists_isPlain_of_forall {vs : List Json} (h : ∀ v ∈ vs, ∃ levels, v.IsPlain levels) :
    ∃ levels, ∀ v ∈ vs, v.IsPlain levels := by
  induction vs with
  | nil => exact ⟨0, List.forall_mem_nil _⟩
  | cons v vs ih =>
    obtain ⟨⟨first, hfirst⟩, hrest⟩ := List.forall_mem_cons.1 h
    obtain ⟨levels, hall⟩ := ih hrest
    refine ⟨max first levels, List.forall_mem_cons.2 ⟨hfirst.mono (Nat.le_max_left _ _), ?_⟩⟩
    exact fun w hw => (hall w hw).mono (Nat.le_max_right _ _)

/-- What reads the text of a plain value finds the structure of that value. -/
theorem IsPlain.exists_readValue (h : v.IsPlain levels) :
    ∃ s next, Source.readValue levels (Cursor.ofText v.compact .start) = .ok (s, next) ∧
      s.outline = v.outline := by
  have hrest : (Cursor.ofText v.compact .start).rest = v.write ++ [] := by
    rw [List.append_nil]
    exact String.toList_ofList
  obtain ⟨s, next, hs, houtline, -⟩ := Source.readValue_complete h.fits_outline
    (Cursor.canRead_of_rest hrest (spells_write h)) Source.stops_nil
  exact ⟨s, next, hs, houtline⟩

/-- Different plain values have different texts. -/
theorem compact_injective (hv : v.IsPlain levels) (hw : w.IsPlain levels)
    (h : v.compact = w.compact) : v = w := by
  obtain ⟨s, next, hs, hsv⟩ := hv.exists_readValue
  obtain ⟨t, last, ht, htw⟩ := hw.exists_readValue
  rw [← h, hs] at ht
  obtain rfl : s = t := (Prod.mk.inj (Except.ok.inj ht)).1
  have houtline : v.outline = w.outline := hsv.symm.trans htw
  -- the structure, given places anywhere, is the value again
  rw [← hv.toJson_ofJson (.root ""), ← hw.toJson_ofJson (.root ""), ← placed_outline,
    ← placed_outline, houtline]

end Json

/-! ### Exact values -/

/-- Whether a scalar without quotes is `null`, a truth value or an integer of 64 bits. -/
def Scalar.IsExact (s : Scalar) : Prop :=
  s.isQuoted ∨ s.isNull ∨ s.boolean?.isSome ∨ ∃ i, Numeral.read? s.text.toList = some (.integer i)

/-- Whether all scalars without quotes in a value are `null`, truth values or integers of 64
bits. -/
inductive Node.IsExact : Node → Prop
  | object (p : Place) {members : List (String × Node)} :
    (∀ m ∈ members, IsExact m.2) → IsExact (.object p members)
  | array (p : Place) {items : List Node} : (∀ n ∈ items, IsExact n) → IsExact (.array p items)
  | scalar (p : Place) {s : Scalar} : s.IsExact → IsExact (.scalar p s)

/-- A scalar without quotes that is exact is a plain value and no text. -/
theorem Scalar.IsExact.of_bare {s : Scalar} (h : s.IsExact) (hbare : s.isQuoted = false) :
    s.toJson.IsPlain 0 ∧ ∀ t, s.toJson ≠ .text t := by
  rw [Scalar.toJson, if_neg (by simp [hbare])]
  split
  · exact ⟨.null _, fun t ht => by cases ht⟩
  · rename_i hnull
    split
    · exact ⟨.boolean _ _, fun t ht => by cases ht⟩
    · rename_i hboolean
      obtain ⟨i, hi⟩ : ∃ i, Numeral.read? s.text.toList = some (.integer i) := by
        rcases h with h | h | h | h
        · rw [hbare] at h
          cases h
        · exact absurd h hnull
        · rw [hboolean] at h
          cases h
        · exact h
      obtain ⟨hlow, hhigh⟩ := Numeral.range_of_read? hi
      rw [bareJson, hi]
      exact ⟨.number _ hlow hhigh, fun t ht => by cases ht⟩

theorem Scalar.toJson_of_isQuoted {s : Scalar} (h : s.isQuoted) : s.toJson = .text s.text := by
  rw [Scalar.toJson, if_pos h]

theorem Scalar.IsExact.isPlain {s : Scalar} (h : s.IsExact) : s.toJson.IsPlain 0 := by
  cases hquoted : s.isQuoted with
  | true =>
    rw [Scalar.toJson_of_isQuoted hquoted]
    exact .text _ _
  | false => exact (h.of_bare hquoted).1

theorem Scalar.IsExact.ne_object {s : Scalar} (h : s.IsExact) (members : List (String × Json)) :
    s.toJson ≠ .object members := by
  intro heq
  have hplain := h.isPlain
  rw [heq] at hplain
  cases hplain

theorem Scalar.IsExact.ne_array {s : Scalar} (h : s.IsExact) (items : List Json) :
    s.toJson ≠ .array items := by
  intro heq
  have hplain := h.isPlain
  rw [heq] at hplain
  cases hplain

theorem Scalar.IsExact.isQuoted_of_eq {s t : Scalar} (h : s.IsExact) (heq : s.toJson = t.toJson)
    (ht : t.isQuoted) : s.isQuoted := by
  by_contra hbare
  rw [toJson_of_isQuoted ht] at heq
  exact (h.of_bare (by simpa using hbare)).2 _ heq

namespace Node

variable {m n : Node}

/-- An exact value is plain. -/
theorem IsExact.exists_isPlain (h : n.IsExact) : ∃ levels, n.toJson.IsPlain levels := by
  induction h with
  | @object p members _ ih =>
    obtain ⟨sorted, hobject, hsorted, hsub⟩ := Json.exists_ofMembers (membersToJson members)
    have hall : ∀ v ∈ sorted.map (·.2), ∃ levels, v.IsPlain levels := by
      intro v hv
      obtain ⟨m', hm', rfl⟩ := List.mem_map.1 hv
      have hmember := hsub hm'
      rw [membersToJson_eq_map] at hmember
      obtain ⟨m, hm, rfl⟩ := List.mem_map.1 hmember
      exact ih m hm
    obtain ⟨levels, hlevels⟩ := Json.exists_isPlain_of_forall hall
    refine ⟨levels + 1, ?_⟩
    rw [toJson, hobject]
    exact .object (List.pairwise_map.2 hsorted) fun m hm => hlevels _ (List.mem_map_of_mem hm)
  | @array p items _ ih =>
    have hall : ∀ v ∈ itemsToJson items, ∃ levels, v.IsPlain levels := by
      intro v hv
      rw [itemsToJson_eq_map] at hv
      obtain ⟨n, hn, rfl⟩ := List.mem_map.1 hv
      exact ih n hn
    obtain ⟨levels, hlevels⟩ := Json.exists_isPlain_of_forall hall
    exact ⟨levels + 1, .array hlevels⟩
  | scalar p hs => exact ⟨0, hs.isPlain⟩

/-- Exact values are equal as JSON if they have one text. -/
theorem IsExact.compact_eq_iff (hm : m.IsExact) (hn : n.IsExact) :
    m.toJson.compact = n.toJson.compact ↔ m.toJson = n.toJson := by
  refine ⟨fun h => ?_, fun h => by rw [h]⟩
  obtain ⟨levels, hplain⟩ := hm.exists_isPlain
  obtain ⟨more, hplain'⟩ := hn.exists_isPlain
  exact Json.compact_injective (hplain.mono (Nat.le_max_left levels more))
    (hplain'.mono (Nat.le_max_right levels more)) h

/-- Exact values that are equal as JSON are of one sort, and both are quoted or neither is. -/
theorem IsExact.sort_eq (hm : m.IsExact) (hn : n.IsExact) (h : m.toJson = n.toJson) :
    m.members?.isSome = n.members?.isSome ∧ m.items?.isSome = n.items?.isSome ∧
      m.scalar?.map Scalar.isQuoted = n.scalar?.map Scalar.isQuoted := by
  cases hm with
  | object p hmembers =>
    cases hn with
    | object => exact ⟨rfl, rfl, rfl⟩
    | array => cases h
    | scalar q hs => exact absurd h.symm (hs.ne_object _)
  | array p hitems =>
    cases hn with
    | object => cases h
    | array => exact ⟨rfl, rfl, rfl⟩
    | scalar q hs => exact absurd h.symm (hs.ne_array _)
  | @scalar p s hs =>
    cases hn with
    | object => exact absurd h (hs.ne_object _)
    | array => exact absurd h (hs.ne_array _)
    | @scalar q t ht =>
      refine ⟨rfl, rfl, congrArg some (Bool.eq_iff_iff.2 ⟨?_, ?_⟩)⟩
      · exact ht.isQuoted_of_eq h.symm
      · exact hs.isQuoted_of_eq h

end Node

/-! ### Lists without repetitions -/

namespace Arrangement

variable {items : List Node} {seen : List String} {n : Node}

/-- What is left of a list are the items at some positions: those whose text has not been seen and
differs from the text of each item before. -/
theorem exists_positions (seen : List String) (items : List Node) :
    ∃ positions : List Nat, positions.Pairwise (· < ·) ∧
      (distinctAfter seen items).map some = positions.map (items[·]?) ∧
      ∀ i, i ∈ positions ↔ ∃ n, items[i]? = some n ∧ n.toJson.compact ∉ seen ∧
        ∀ m ∈ items.take i, m.toJson.compact ≠ n.toJson.compact := by
  induction items generalizing seen with
  | nil => exact ⟨[], .nil, rfl, fun i => by simp⟩
  | cons first items ih =>
    -- the positions behind the first item, and what they mean for the whole list
    have hordered : ∀ positions : List Nat, positions.Pairwise (· < ·) →
        (positions.map (· + 1)).Pairwise (· < ·) := fun positions h =>
      List.pairwise_map.2 (h.imp Nat.succ_lt_succ)
    have hitems : ∀ positions : List Nat,
        (positions.map (· + 1)).map ((first :: items)[·]?) = positions.map (items[·]?) := by
      intro positions
      rw [List.map_map]
      rfl
    have hbehind : ∀ (positions : List Nat) (i : Nat),
        i + 1 ∈ positions.map (· + 1) ↔ i ∈ positions := by simp
    have hbefore : ∀ (i : Nat) (n : Node),
        (∀ m ∈ (first :: items).take (i + 1), m.toJson.compact ≠ n.toJson.compact) ↔
          first.toJson.compact ≠ n.toJson.compact ∧
            ∀ m ∈ items.take i, m.toJson.compact ≠ n.toJson.compact :=
      fun i n => List.forall_mem_cons
    rw [distinctAfter]
    simp only [List.contains_iff_mem]
    split
    · rename_i hseen
      obtain ⟨positions, hpositions, hkept, hmem⟩ := ih seen
      refine ⟨positions.map (· + 1), hordered _ hpositions, by rw [hkept, hitems], ?_⟩
      rintro (_ | i)
      · simp [hseen]
      · rw [hbehind, hmem]
        refine exists_congr fun n => and_congr_right fun _ => and_congr_right fun hn => ?_
        rw [hbefore, and_iff_right]
        rintro heq
        exact hn (heq ▸ hseen)
    · rename_i hseen
      obtain ⟨positions, hpositions, hkept, hmem⟩ := ih (first.toJson.compact :: seen)
      refine ⟨0 :: positions.map (· + 1), ?_, ?_, ?_⟩
      · exact List.pairwise_cons.2 ⟨by simp, hordered _ hpositions⟩
      · rw [List.map_cons, List.map_cons, hkept, hitems]
        rfl
      · rintro (_ | i)
        · simp [hseen]
        · rw [List.mem_cons, hbehind, hmem, or_iff_right (Nat.succ_ne_zero i)]
          refine exists_congr fun n => and_congr_right fun _ => ?_
          rw [hbefore, List.mem_cons, not_or, and_assoc, and_left_comm, ne_comm]

theorem distinctAfter_sublist (seen : List String) (items : List Node) :
    (distinctAfter seen items).Sublist items := by
  induction items generalizing seen with
  | nil => exact List.Sublist.refl _
  | cons n items ih =>
    rw [distinctAfter]
    split
    · exact (ih seen).cons n
    · exact (ih _).cons_cons n

/-- The texts of the items that are left differ, and none of them has been seen. -/
theorem nodup_distinctAfter (seen : List String) (items : List Node) :
    ((distinctAfter seen items).map (·.toJson.compact)).Nodup ∧
      ∀ n ∈ distinctAfter seen items, n.toJson.compact ∉ seen := by
  induction items generalizing seen with
  | nil => exact ⟨.nil, List.forall_mem_nil _⟩
  | cons n items ih =>
    rw [distinctAfter]
    simp only [List.contains_iff_mem]
    split
    · exact ih seen
    · rename_i hseen
      obtain ⟨hnodup, hfresh⟩ := ih (n.toJson.compact :: seen)
      refine ⟨List.nodup_cons.2 ⟨fun hn => ?_, hnodup⟩, List.forall_mem_cons.2 ⟨hseen, ?_⟩⟩
      · obtain ⟨m, hm, heq⟩ := List.mem_map.1 hn
        exact hfresh m hm (heq ▸ List.mem_cons_self)
      · exact fun m hm hmem => hfresh m hm (List.mem_cons_of_mem _ hmem)

/-- Items with different texts that have not been seen are all left. -/
theorem distinctAfter_eq_self (hnodup : (items.map (·.toJson.compact)).Nodup)
    (hfresh : ∀ n ∈ items, n.toJson.compact ∉ seen) : distinctAfter seen items = items := by
  induction items generalizing seen with
  | nil => rfl
  | cons n items ih =>
    obtain ⟨hn, hrest⟩ := List.nodup_cons.1 hnodup
    obtain ⟨hfirst, hothers⟩ := List.forall_mem_cons.1 hfresh
    rw [distinctAfter]
    simp only [List.contains_iff_mem]
    rw [if_neg hfirst, ih hrest]
    intro m hm hmem
    rcases List.mem_cons.1 hmem with heq | hmem
    · exact hn (List.mem_map.2 ⟨m, hm, heq⟩)
    · exact hothers m hm hmem

/-- A second item is left exactly if its text is another one. -/
theorem distinctAfter_pair (m n : Node) :
    distinctAfter [] [m, n] = [m] ↔ m.toJson.compact = n.toJson.compact := by
  simp only [distinctAfter, List.contains_iff_mem]
  by_cases h : n.toJson.compact = m.toJson.compact
  · simp [h]
  · simp [h, Ne.symm h]

/-- What is left of a list of exact values without repetitions are the items that are the first
ones with their JSON value, in their order, and nothing else. Two items are merged exactly if they
are the same JSON value. Then they are of one sort, and both are quoted or neither is, while the
order of their members does not matter. A second time nothing changes. -/
theorem distinct_keeps_firsts {items : List Node} (h : ∀ n ∈ items, n.IsExact) :
    ∃ kept, select items .distinct = .many kept ∧ kept.Sublist items ∧
      (∃ positions : List Nat, positions.Pairwise (· < ·) ∧
        kept.map some = positions.map (items[·]?) ∧
        ∀ i, i ∈ positions ↔ ∃ n, items[i]? = some n ∧ ∀ m ∈ items.take i, m.toJson ≠ n.toJson) ∧
      (∀ m ∈ items, ∀ n ∈ items,
        (select [m, n] .distinct = .many [m] ↔ m.toJson = n.toJson) ∧
        (m.toJson = n.toJson → m.members?.isSome = n.members?.isSome ∧
          m.items?.isSome = n.items?.isSome ∧
          m.scalar?.map Scalar.isQuoted = n.scalar?.map Scalar.isQuoted)) ∧
      (∀ p q members members', (members.map (·.1)).Nodup → members.Perm members' →
        (Node.object p members).toJson = (Node.object q members').toJson) ∧
      select kept .distinct = .many kept := by
  refine ⟨distinctAfter [] items, rfl, distinctAfter_sublist [] items, ?_, ?_, ?_, ?_⟩
  · obtain ⟨positions, hpositions, hkept, hmem⟩ := exists_positions [] items
    refine ⟨positions, hpositions, hkept, fun i => (hmem i).trans ?_⟩
    refine exists_congr fun n => and_congr_right fun hn => ?_
    have hexact : n.IsExact := h n (List.mem_of_getElem? hn)
    rw [and_iff_right List.not_mem_nil]
    refine forall_congr' fun m => forall_congr' fun hm => not_congr ?_
    exact (h m (List.mem_of_mem_take hm)).compact_eq_iff hexact
  · intro m hm n hn
    refine ⟨?_, (h m hm).sort_eq (h n hn)⟩
    rw [← (h m hm).compact_eq_iff (h n hn), ← distinctAfter_pair]
    exact View.many.injEq _ _ ▸ Iff.rfl
  · exact fun p q members members' => Node.toJson_object_perm
  · obtain ⟨hnodup, hfresh⟩ := nodup_distinctAfter [] items
    exact congrArg View.many (distinctAfter_eq_self hnodup hfresh)

/-- A number, `null`, an array and a text for each of them, an object in two orders, and the number
again. -/
def lookalikes : List Node :=
  let here : Place := .at (.root "D")
  let one : Node := .scalar here (.bare "1")
  let text (s : String) : Node := .scalar here (.quoted s)
  [one, text "1", .scalar here .null, text "null", .array here [one], text "[1]",
    .object here [("B", one), ("A", text "x")], .object here [("A", text "x"), ("B", one)], one]

theorem lookalikes_isExact : ∀ n ∈ lookalikes, n.IsExact := by
  have hone : (Scalar.bare "1").IsExact := .inr (.inr (.inr ⟨1, rfl⟩))
  have hnull : Scalar.null.IsExact := .inr (.inl rfl)
  have htext (s : String) : (Scalar.quoted s).IsExact := .inl rfl
  simp only [lookalikes, List.forall_mem_cons]
  refine ⟨.scalar _ hone, .scalar _ (htext _), .scalar _ hnull, .scalar _ (htext _), .array _ ?_,
    .scalar _ (htext _), .object _ ?_, .object _ ?_, .scalar _ hone, List.forall_mem_nil _⟩
  · exact List.forall_mem_singleton.2 (.scalar _ hone)
  · simp only [List.forall_mem_cons]
    exact ⟨.scalar _ hone, .scalar _ (htext _), List.forall_mem_nil _⟩
  · simp only [List.forall_mem_cons]
    exact ⟨.scalar _ (htext _), .scalar _ hone, List.forall_mem_nil _⟩

theorem distinct_keeps_firsts_lookalikes :
    (∀ n ∈ lookalikes, n.IsExact) ∧
      ∃ kept, select lookalikes .distinct = .many kept ∧ kept.length = 7 ∧
        kept.Sublist lookalikes ∧ select kept .distinct = .many kept := by
  obtain ⟨kept, hkept, hsub, -, -, -, hagain⟩ := distinct_keeps_firsts lookalikes_isExact
  refine ⟨lookalikes_isExact, kept, hkept, ?_, hsub, hagain⟩
  obtain rfl : distinctAfter [] lookalikes = kept := View.many.inj hkept
  decide +kernel

end Arrangement

end DocQuery
