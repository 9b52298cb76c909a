/-
Texts that are read fail only where they are malformed.

* `Reading.IsSound` — what a reader finds is there, or a fault that is not one of the library;
* `readJson_isSound` — reading a JSON text ends with its tree or with such a fault.

Design notes: every reader names the fault of a text itself, so its lemma goes through its branches.
The loops are sound over any reader of values that is.
-/
import DocQuery.Proofs.Fault
import DocQuery.Source.Reader

namespace DocQuery

open Outcome

/-- Whether what a reader finds is there, or a fault that is not one of the library. -/
def Reading.IsSound {α : Type} (r : Reading α) : Prop := Outcome.IsSound r.1

theorem Reading.IsSound.value {α : Type} {r : Reading α} (h : r.IsSound) :
    Outcome.IsSound (Reading.value r) :=
  h.map _

namespace Cursor

variable (c : Cursor)

theorem expect_isSound (d : Char) : (c.expect d).IsSound := by
  unfold expect
  split
  · exact isSound_ok _
  · exact isSound_malformed _ _

theorem readName_isSound : c.readName.IsSound := by
  unfold readName
  split
  · exact isSound_malformed _ _
  · exact isSound_ok _

theorem readNumber_isSound : c.readNumber.IsSound := by
  unfold readNumber
  simp only
  split
  · exact isSound_malformed _ _
  · exact isSound_ok _

theorem readQuoted_isSound : c.readQuoted.IsSound := by
  unfold readQuoted
  split
  · exact isSound_ok _
  · exact isSound_malformed _ _

end Cursor

namespace Source

variable (c : Cursor)

theorem readText_isSound : IsSound (readText c) :=
  c.readQuoted_isSound.value.bind fun _ => isSound_ok _

theorem readNumber_isSound : IsSound (readNumber c) := by
  refine c.readNumber_isSound.value.bind fun ⟨spelling, next⟩ => ?_
  simp only
  split
  · exact isSound_ok _
  · exact isSound_malformed _ _

theorem readWord_isSound : IsSound (readWord c) := by
  refine c.readName_isSound.value.bind fun ⟨word, next⟩ => ?_
  simp only
  split
  · exact isSound_ok _
  · exact isSound_malformed _ _

theorem readScalar_isSound (first : Char) : IsSound (readScalar first c) := by
  unfold readScalar
  split
  · exact readText_isSound c
  · split
    · exact readNumber_isSound c
    · split
      · exact readWord_isSound c
      · exact isSound_malformed _ _

theorem readSeparator_isSound (close : Char) (start : Position) :
    IsSound (readSeparator close start c) := by
  unfold readSeparator
  simp only
  split
  · exact isSound_ok _
  · split
    · exact isSound_ok _
    · split
      · exact isSound_malformed _ _
      · exact isSound_malformed _ _

theorem readMemberName_isSound (earlier : List String) : IsSound (readMemberName earlier c) := by
  unfold readMemberName
  simp only
  split
  · exact isSound_malformed _ _
  · refine c.skipBlank.readQuoted_isSound.value.bind fun read => ?_
    split
    · exact isSound_malformed _ _
    · exact (Cursor.expect_isSound _ _).value.bind fun _ => isSound_ok _

/-- Whether a reader of values ends with a value or with a fault that is not one of the library. -/
def ValueReader.EndsSoundly (read : ValueReader) : Prop := ∀ c, Outcome.IsSound (read c)

section Containers

variable {read : ValueReader}

theorem readMembers_isSound (hread : read.EndsSoundly) (start : Position) (fuel : Nat)
    (earlier : List String) (c : Cursor) :
    Outcome.IsSound (readMembers read start fuel earlier c) := by
  induction fuel generalizing earlier c with
  | zero => exact isSound_ok _
  | succ fuel ih =>
    rw [readMembers]
    refine (readMemberName_isSound c earlier).bind fun ⟨name, next⟩ => ?_
    refine (hread next).bind fun ⟨value, next⟩ => ?_
    refine (readSeparator_isSound next '}' start).bind fun separation => ?_
    cases separation with
    | done next => exact isSound_ok _
    | more next => exact (ih _ next).bind fun _ => isSound_ok _

theorem readItems_isSound (hread : read.EndsSoundly) (start : Position) (fuel : Nat) (c : Cursor) :
    Outcome.IsSound (readItems read start fuel c) := by
  induction fuel generalizing c with
  | zero => exact isSound_ok _
  | succ fuel ih =>
    rw [readItems]
    refine (hread c).bind fun ⟨value, next⟩ => ?_
    refine (readSeparator_isSound next ']' start).bind fun separation => ?_
    cases separation with
    | done next => exact isSound_ok _
    | more next => exact (ih next).bind fun _ => isSound_ok _

theorem readObject_isSound (hread : read.EndsSoundly) (c : Cursor) :
    Outcome.IsSound (readObject read c) := by
  unfold readObject
  simp only
  split
  · exact isSound_ok _
  · exact (readMembers_isSound hread _ _ _ _).bind fun _ => isSound_ok _

theorem readArray_isSound (hread : read.EndsSoundly) (c : Cursor) :
    Outcome.IsSound (readArray read c) := by
  unfold readArray
  simp only
  split
  · exact isSound_ok _
  · exact (readItems_isSound hread _ _ _).bind fun _ => isSound_ok _

end Containers

theorem readValue_isSound (levels : Nat) : (readValue levels).EndsSoundly := by
  induction levels with
  | zero =>
    intro c
    rw [readValue]
    split
    · exact isSound_malformed _ _
    · split
      · exact isSound_malformed _ _
      · exact readScalar_isSound _ _
  | succ levels ih =>
    intro c
    rw [readValue]
    simp only
    split
    · exact isSound_malformed _ _
    · split
      · split
        · exact readObject_isSound ih _
        · exact readArray_isSound ih _
      · exact readScalar_isSound _ _

end Source

/-- Reading a JSON text ends with its tree, or with a fault that is not one of the library. -/
theorem readJson_isSound (text : String) : IsSound (readJson text) := by
  refine (Source.readValue_isSound maximalNesting _).bind fun ⟨value, next⟩ => ?_
  simp only
  split
  · exact isSound_ok _
  · exact isSound_malformed _ _

end DocQuery
