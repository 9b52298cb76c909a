/-
The places of the values of a text.

* `Position.Encloses` — places that stand one behind the other, between two places of a text;
* `Source.ValueReader.IsOrdered` — a reader that finds the values it reads at such places;
* `Source.readMembers_encloses`, `Source.readItems_encloses` — entries stand one behind the other;
* `readJson_ordered` — the values of a text begin one behind the other, containers before what they
  hold.

Design notes: a reader never moves back, so all that it finds lies between the cursor that it is
given and the one that it leaves. Every value takes a character at least; what follows it therefore
begins behind it, and not where it begins.
-/
import DocQuery.Proofs.Expr.Lexing
import DocQuery.Source.Reader

namespace DocQuery

namespace Position

variable {p q r : Position} {ps qs : List Position}

/-- Whether `p` is the place `q`, or comes before it in a text. -/
def UpTo (p q : Position) : Prop := p = q ∨ p.Before q

theorem UpTo.refl (p : Position) : p.UpTo p := .inl rfl

theorem Before.upTo (h : p.Before q) : p.UpTo q := .inr h

theorem Before.trans_upTo (h : p.Before q) (h' : q.UpTo r) : p.Before r := by
  rcases h' with rfl | h'
  · exact h
  · exact h.trans h'

theorem UpTo.trans (h : p.UpTo q) (h' : q.UpTo r) : p.UpTo r := by
  rcases h with rfl | h
  · exact h'
  · exact (h.trans_upTo h').upTo

/-- Whether places stand one behind the other, none of them before `p`, all of them before `q`. -/
structure Encloses (p : Position) (ps : List Position) (q : Position) : Prop where
  upTo : p.UpTo q
  ordered : ps.Pairwise Before
  lower : ∀ r ∈ ps, p.UpTo r
  upper : ∀ r ∈ ps, r.Before q

namespace Encloses

theorem nil (h : p.UpTo q) : Encloses p [] q := ⟨h, .nil, by simp, by simp⟩

/-- What stands further on may be found from further back. -/
theorem widen (h : Encloses q ps r) (hp : p.UpTo q) : Encloses p ps r :=
  ⟨hp.trans h.upTo, h.ordered, fun a ha => hp.trans (h.lower a ha), h.upper⟩

theorem extend (h : Encloses p ps q) (hq : q.UpTo r) : Encloses p ps r :=
  ⟨h.upTo.trans hq, h.ordered, h.lower, fun a ha => (h.upper a ha).trans_upTo hq⟩

/-- A place before others. -/
theorem cons (hp : p.Before q) (h : Encloses q ps r) : Encloses p (p :: ps) r where
  upTo := (hp.trans_upTo h.upTo).upTo
  ordered := List.pairwise_cons.2 ⟨fun a ha => hp.trans_upTo (h.lower a ha), h.ordered⟩
  lower := by
    intro a ha
    rcases List.mem_cons.1 ha with rfl | ha
    · exact .refl a
    · exact (hp.trans_upTo (h.lower a ha)).upTo
  upper := by
    intro a ha
    rcases List.mem_cons.1 ha with rfl | ha
    · exact hp.trans_upTo h.upTo
    · exact h.upper a ha

/-- Places that end where others begin. -/
theorem append (h : Encloses p ps q) (h' : Encloses q qs r) : Encloses p (ps ++ qs) r where
  upTo := h.upTo.trans h'.upTo
  ordered := by
    rw [List.pairwise_append]
    exact ⟨h.ordered, h'.ordered, fun a ha b hb => (h.upper a ha).trans_upTo (h'.lower b hb)⟩
  lower := by
    intro a ha
    rcases List.mem_append.1 ha with ha | ha
    · exact h.lower a ha
    · exact h.upTo.trans (h'.lower a ha)
  upper := by
    intro a ha
    rcases List.mem_append.1 ha with ha | ha
    · exact (h.upper a ha).trans_upTo h'.upTo
    · exact h'.upper a ha

end Encloses

end Position

/-! ### Cursors move forward -/

namespace Cursor

variable {c next : Cursor}

theorem upTo_pass (c : Cursor) (n : Nat) : c.position.UpTo (c.pass n).position := by
  rcases Position.eq_or_before_after c.position (c.rest.take n) with heq | hbefore
  · exact .inl heq.symm
  · exact .inr hbefore

theorem upTo_skipBlank (c : Cursor) : c.position.UpTo c.skipBlank.position :=
  c.upTo_pass _

theorem IsBehind.upTo (h : next.IsBehind c) : c.position.UpTo next.position := by
  obtain ⟨n, -, rfl⟩ := h
  exact c.upTo_pass n

theorem upTo_of_passChar? {d : Char} (h : c.passChar? d = some next) :
    c.position.UpTo next.position := by
  rw [passChar?, passWord?] at h
  split at h
  · obtain rfl := Option.some.inj h
    exact c.upTo_pass _
  · cases h

theorem upTo_of_expect {d : Char} (h : c.expect d = (.ok (), next)) :
    c.position.UpTo next.position := by
  rw [expect] at h
  split at h
  · rename_i hpass
    obtain rfl := (Prod.mk.inj h).2
    exact upTo_of_passChar? hpass
  · exact absurd (Prod.mk.inj h).1 (by simp)

theorem rest_ne_nil_of_peek {first : Char} (h : c.peek = some first) : c.rest ≠ [] := by
  intro hnil
  simp [peek, hnil] at h

/-- A character is passed where there is one. -/
theorem before_pass_one (h : c.rest ≠ []) : c.position.Before (c.pass 1).position :=
  IsBehind.before ⟨1, Nat.one_pos, rfl⟩ h

end Cursor

/-! ### Values stand where they were read -/

namespace Source

open Position (Encloses UpTo)

variable {c next : Cursor} {v : Source}

/-- Whether the values that a reader finds begin one behind the other, from where it begins to where
it stops. -/
def ValueReader.IsOrdered (read : ValueReader) : Prop :=
  ∀ {c v next}, read c = .ok (v, next) → Encloses c.position v.positions next.position

theorem readScalar_encloses {first : Char} (hfirst : c.peek = some first)
    (h : readScalar first c = .ok (v, next)) : Encloses c.position v.positions next.position := by
  -- a scalar begins where its reader begins, and each of the three readers passes a character
  have hone : ∀ {s columns after}, after.IsBehind c → .scalar s columns c.position = v →
      after = next → Encloses c.position v.positions next.position := by
    rintro s columns after hbehind rfl rfl
    exact .cons (hbehind.before (Cursor.rest_ne_nil_of_peek hfirst)) (.nil (.refl _))
  rw [readScalar] at h
  split at h
  · rw [readText] at h
    obtain ⟨⟨quoted, after⟩, hread, h⟩ := Except.bind_eq_ok_iff.1 h
    obtain ⟨hvalue, hnext⟩ := Prod.mk.injEq .. ▸ Except.ok.inj h
    exact hone (Cursor.readQuoted_isBehind (Reading.value_eq_ok_iff.1 hread)) hvalue hnext
  · split at h
    · rw [readNumber] at h
      obtain ⟨⟨spelling, after⟩, hread, h⟩ := Except.bind_eq_ok_iff.1 h
      simp only at h
      split at h
      · obtain ⟨hvalue, hnext⟩ := Prod.mk.injEq .. ▸ Except.ok.inj h
        exact hone (Cursor.readNumber_isBehind (Reading.value_eq_ok_iff.1 hread)) hvalue hnext
      · cases h
    · split at h
      · rw [readWord] at h
        obtain ⟨⟨word, after⟩, hread, h⟩ := Except.bind_eq_ok_iff.1 h
        simp only at h
        split at h
        · obtain ⟨hvalue, hnext⟩ := Prod.mk.injEq .. ▸ Except.ok.inj h
          exact hone (Cursor.readName_spec (Reading.value_eq_ok_iff.1 hread)).2 hvalue hnext
        · cases h
      · cases h

theorem upTo_of_readMemberName {earlier : List String} {name : String}
    (h : readMemberName earlier c = .ok (name, next)) : c.position.UpTo next.position := by
  rw [readMemberName] at h
  simp only at h
  split at h
  · cases h
  · obtain ⟨⟨quoted, after⟩, hquoted, h⟩ := Except.bind_eq_ok_iff.1 h
    simp only at h
    split at h
    · cases h
    · obtain ⟨⟨_, last⟩, hcolon, h⟩ := Except.bind_eq_ok_iff.1 h
      obtain ⟨-, rfl⟩ := Prod.mk.injEq .. ▸ Except.ok.inj h
      have hname := Cursor.readQuoted_isBehind (Reading.value_eq_ok_iff.1 hquoted)
      have hlast := Cursor.upTo_of_expect (Reading.value_eq_ok_iff.1 hcolon)
      exact c.upTo_skipBlank.trans (hname.upTo.trans (after.upTo_skipBlank.trans hlast))

/-- The cursor behind a separator. -/
def Separation.behind : Separation → Cursor
  | .more c | .done c => c

theorem upTo_of_readSeparator {close : Char} {start : Position} {s : Separation}
    (h : readSeparator close start c = .ok s) : c.position.UpTo s.behind.position := by
  rw [readSeparator] at h
  split at h
  · rename_i hcomma
    obtain rfl := Except.ok.inj h
    exact c.upTo_skipBlank.trans (Cursor.upTo_of_passChar? hcomma)
  · split at h
    · rename_i hclose
      obtain rfl := Except.ok.inj h
      exact c.upTo_skipBlank.trans (Cursor.upTo_of_passChar? hclose)
    · split at h
      · cases h
      · cases h

section Containers

variable {read : ValueReader} {start : Position} {fuel : Nat}

/-- Members stand one behind the other. -/
theorem readMembers_encloses (hread : read.IsOrdered) {earlier : List String}
    {members : List (String × Source)}
    (h : readMembers read start fuel earlier c = .ok (members, next)) :
    Encloses c.position (memberPositions members) next.position := by
  induction fuel generalizing earlier c next members with
  | zero =>
    obtain ⟨rfl, rfl⟩ := Prod.mk.injEq .. ▸ Except.ok.inj h
    exact .nil (.refl _)
  | succ fuel ih =>
    rw [readMembers] at h
    obtain ⟨⟨name, afterName⟩, hname, h⟩ := Except.bind_eq_ok_iff.1 h
    obtain ⟨⟨value, afterValue⟩, hvalue, h⟩ := Except.bind_eq_ok_iff.1 h
    obtain ⟨separation, hseparator, h⟩ := Except.bind_eq_ok_iff.1 h
    have hfirst := (hread hvalue).widen (upTo_of_readMemberName hname)
    have hbehind := hfirst.extend (upTo_of_readSeparator hseparator)
    rcases separation with more | done
    · obtain ⟨⟨rest, last⟩, hrest, h⟩ := Except.bind_eq_ok_iff.1 h
      obtain ⟨rfl, rfl⟩ := Prod.mk.injEq .. ▸ Except.ok.inj h
      exact hbehind.append (ih hrest)
    · obtain ⟨rfl, rfl⟩ := Prod.mk.injEq .. ▸ Except.ok.inj h
      rw [memberPositions, memberPositions, List.append_nil]
      exact hbehind

/-- Items stand one behind the other. -/
theorem readItems_encloses (hread : read.IsOrdered) {items : List Source}
    (h : readItems read start fuel c = .ok (items, next)) :
    Encloses c.position (itemPositions items) next.position := by
  induction fuel generalizing c next items with
  | zero =>
    obtain ⟨rfl, rfl⟩ := Prod.mk.injEq .. ▸ Except.ok.inj h
    exact .nil (.refl _)
  | succ fuel ih =>
    rw [readItems] at h
    obtain ⟨⟨value, afterValue⟩, hvalue, h⟩ := Except.bind_eq_ok_iff.1 h
    obtain ⟨separation, hseparator, h⟩ := Except.bind_eq_ok_iff.1 h
    have hbehind := (hread hvalue).extend (upTo_of_readSeparator hseparator)
    rcases separation with more | done
    · obtain ⟨⟨rest, last⟩, hrest, h⟩ := Except.bind_eq_ok_iff.1 h
      obtain ⟨rfl, rfl⟩ := Prod.mk.injEq .. ▸ Except.ok.inj h
      exact hbehind.append (ih hrest)
    · obtain ⟨rfl, rfl⟩ := Prod.mk.injEq .. ▸ Except.ok.inj h
      rw [itemPositions, itemPositions, List.append_nil]
      exact hbehind

/-- An object begins at its brace, and its members behind it. -/
theorem readObject_encloses (hread : read.IsOrdered) (hne : c.rest ≠ [])
    (h : readObject read c = .ok (v, next)) :
    Encloses c.position v.positions next.position := by
  have hinside := (Cursor.before_pass_one hne).trans_upTo (c.pass 1).upTo_skipBlank
  rw [readObject] at h
  simp only at h
  split at h
  · rename_i hclose
    obtain ⟨rfl, rfl⟩ := Prod.mk.injEq .. ▸ Except.ok.inj h
    exact .cons hinside (.nil (Cursor.upTo_of_passChar? hclose))
  · obtain ⟨⟨members, last⟩, hmembers, h⟩ := Except.bind_eq_ok_iff.1 h
    obtain ⟨rfl, rfl⟩ := Prod.mk.injEq .. ▸ Except.ok.inj h
    exact .cons hinside (readMembers_encloses hread hmembers)

/-- An array begins at its bracket, and its items behind it. -/
theorem readArray_encloses (hread : read.IsOrdered) (hne : c.rest ≠ [])
    (h : readArray read c = .ok (v, next)) :
    Encloses c.position v.positions next.position := by
  have hinside := (Cursor.before_pass_one hne).trans_upTo (c.pass 1).upTo_skipBlank
  rw [readArray] at h
  simp only at h
  split at h
  · rename_i hclose
    obtain ⟨rfl, rfl⟩ := Prod.mk.injEq .. ▸ Except.ok.inj h
    exact .cons hinside (.nil (Cursor.upTo_of_passChar? hclose))
  · obtain ⟨⟨items, last⟩, hitems, h⟩ := Except.bind_eq_ok_iff.1 h
    obtain ⟨rfl, rfl⟩ := Prod.mk.injEq .. ▸ Except.ok.inj h
    exact .cons hinside (readItems_encloses hread hitems)

end Containers

/-- The values of a text begin one behind the other, at any level. -/
theorem readValue_isOrdered (levels : Nat) : (readValue levels).IsOrdered := by
  induction levels with
  | zero =>
    intro c v next h
    rw [readValue.eq_def] at h
    simp only at h
    split at h
    · cases h
    · rename_i hfirst
      split at h
      · cases h
      · exact (readScalar_encloses hfirst h).widen c.upTo_skipBlank
  | succ levels ih =>
    intro c v next h
    rw [readValue.eq_def] at h
    simp only at h
    split at h
    · cases h
    · rename_i hfirst
      have hne := Cursor.rest_ne_nil_of_peek hfirst
      split at h
      · split at h
        · exact (readObject_encloses ih hne h).widen c.upTo_skipBlank
        · exact (readArray_encloses ih hne h).widen c.upTo_skipBlank
      · exact (readScalar_encloses hfirst h).widen c.upTo_skipBlank

end Source

/-- The values of a text that is read begin one behind the other. -/
theorem readJson_ordered {text : String} {source : Source} (h : readJson text = .ok source) :
    source.positions.Pairwise Position.Before := by
  rw [readJson] at h
  obtain ⟨⟨value, next⟩, hvalue, h⟩ := Except.bind_eq_ok_iff.1 h
  simp only at h
  split at h
  · obtain rfl := Except.ok.inj h
    exact (Source.readValue_isOrdered _ hvalue).ordered
  · cases h

end DocQuery
