/-
An extended dialect.

* `Dialect.extended` — the standard dialect with more operators, functions, selectors and words.

Design notes: the extensions show every way in which a dialect can differ from the standard one. Two
of the operators, `**` and the operators `#` before and `%` after an operand, belong to the language
without having a meaning.
-/
import DocQuery.Dialect.Vocabulary

namespace DocQuery

namespace Dialect

/-- The language of the extended dialect. -/
def extendedLanguage : Language :=
  Language.standard.withOperators
    [⟨"++", .binary, 65⟩, ⟨"**", .binary, 75⟩, ⟨"mod", .binary, 70⟩, ⟨"not", .before, 80⟩,
      ⟨"#", .before, 80⟩, ⟨"?", .after, 85⟩, ⟨"%", .after, 85⟩]

/-- Twice a number. -/
def twice : Operation where
  kind := .number
  arity := 1
  operandType := .number
  compute
    | [.number x] => .number (x * 2)
    | _ => .undefined

/-- Two texts, one after the other. -/
def joinTexts : Operation where
  kind := .any
  arity := 2
  operandType := .text
  compute
    | [.text s, .text t] => .text (s ++ t)
    | _ => .undefined

/-- The vocabulary of the extended dialect. -/
def extendedVocabulary : Vocabulary :=
  let base := Vocabulary.standard
  { constants := ("answer", .number 42) :: base.constants
    texts := [("@none", some .null), ("@bad", none)]
    refusedNumbers := ["13"]
    functions := ("Twice", .operation twice) :: base.functions
    selectors := ("Tail", .custom fun items => .many (items.drop 1)) :: base.selectors
    binary :=
      ("++", .custom joinTexts) :: ("mod", .operation (.arithmetic .remainder)) :: base.binary
    before := ("not", .apply .not) :: base.before
    after := ("?", .apply .hasValue) :: base.after }

/-- The extended dialect. -/
def extended : Dialect := ⟨extendedLanguage, extendedVocabulary⟩

end Dialect

end DocQuery
