/-
Finished documents.

* `Engine` — the dialect, the options and the present moment;
* `Engine.compileDocument` — a document from its text, below finished documents;
* `Engine.compile` — a text and those that it inherits from;
* `Engine.query`, `Engine.queryText` — the value of an expression against documents.

Design notes: a document whose text or one of whose expressions is malformed is not finished, and
none that inherits from it is even read. A query is evaluated in an empty document that inherits
from the queried ones, so that the nearest of them wins. The present moment is given, so that
everything here is a function of what goes in.
-/
import DocQuery.Directive.Apply
import DocQuery.Source.Reader

namespace DocQuery

open Time (Moment)

/-- What documents are made with. -/
structure Engine where
  dialect : Dialect
  options : Options
  now : Moment

/-- The name and the text of a document. -/
structure SourceText where
  id : String
  text : String
deriving DecidableEq, Repr

/-- Finished documents, and what went wrong on the way. -/
structure Compilation where
  documents : List Document
  reports : List Report

namespace Compilation

/-- The first finished document of a name. -/
def document? (c : Compilation) (id : String) : Option Document :=
  c.documents.find? fun d => d.id == id

/-- The first finished document of the name that comes first in a chain. -/
def closest? (c : Compilation) (chain : List SourceText) : Option Document :=
  chain.head?.bind fun source => c.document? source.id

/-- Whether anything went wrong. -/
def hasReports (c : Compilation) : Bool := !c.reports.isEmpty

end Compilation

/-- What the documents of a chain mean for the next one. -/
inductive Foundation where
  /-- the closest document, if there is one, is finished -/
  | sound (parent : Option Document)
  /-- a document could not be finished -/
  | broken (id : String)

/-- The value of a query, if there is one, and what went wrong. -/
structure Answer where
  value : Option Node
  reports : List Report

/-- The value of an answer without its places, and `null` if there is none. -/
def Answer.toJson (a : Answer) : Json :=
  match a.value with
  | some n => n.toJson
  | none => .null

/-- The name of the document in which queries are evaluated. -/
def queryId : String := "Query"

/-- The report of a document that inherits from an unfinished one. -/
def parentReport (id parent : String) : Report :=
  ⟨id, "parent document " ++ quoted parent ++ " failed to compile", none⟩

namespace Engine

/-- A document from its text, below finished parents, closest first. -/
def compileDocument (e : Engine) (source : SourceText) (parents : List Document) :
    Option Document × List Report :=
  let w : Workshop := ⟨source.id, parents, e.options, e.now⟩
  match readJson source.text with
  | .error fault => (none, [.ofFault source.id fault])
  | .ok tree =>
    match w.run e.dialect (.ofSource tree) with
    | .error faults => (none, faults.map (.ofFault source.id))
    | .ok s =>
      (some (.ofParents ⟨source.id, s.draft.freeze source.id⟩ parents),
        s.faults.map (.ofFault source.id))

/-- A document by itself, below finished parents, closest first. -/
def compileWithParents (e : Engine) (source : SourceText) (parents : List Document) :
    Compilation :=
  let (document, reports) := e.compileDocument source parents
  ⟨document.toList, reports⟩

/-- One document more on top of a chain. -/
def compileNext (e : Engine) (source : SourceText) :
    Compilation × Foundation → Compilation × Foundation
  | (below, .broken id) =>
    (⟨below.documents, below.reports ++ [parentReport source.id id]⟩, .broken id)
  | (below, .sound parent) =>
    let (document, reports) := e.compileDocument source parent.toList
    (⟨below.documents ++ document.toList, below.reports ++ reports⟩,
      match document with
      | some d => .sound (some d)
      | none => .broken source.id)

/-- A chain of documents, of which each inherits from those behind it. The last one comes first. -/
def compileChain (e : Engine) : List SourceText → Compilation × Foundation
  | [] => (⟨[], []⟩, .sound none)
  | source :: parents => e.compileNext source (e.compileChain parents)

/-- The documents of a chain, closest first. -/
def compile (e : Engine) (chain : List SourceText) : Compilation :=
  (e.compileChain chain).1

/-- The empty document in which queries against `documents` are evaluated. -/
def queryDocument (documents : List Document) : Document :=
  .ofParents ⟨queryId, .object (.at (.root queryId)) []⟩ documents

/-- The value of an expression in a document. -/
def evaluateIn (e : Engine) (d : Document) (f : Formula) : Traced Value :=
  evaluate ⟨d, e.options, e.now, []⟩ f

/-- The value of an expression against finished documents, closest first. -/
def query (e : Engine) (expression : String) (documents : List Document) : Answer :=
  let outcome := do
    let f ← compileExpression e.dialect expression .start
    (e.evaluateIn (queryDocument documents) f).outcome
  match outcome with
  | .ok v => ⟨v.toNode? (.root queryId), []⟩
  | .error fault => ⟨none, [.ofFault queryId fault]⟩

/-- The value of an expression against the first of a chain of documents. -/
def queryText (e : Engine) (expression : String) (chain : List SourceText) : Answer :=
  let compiled := e.compile chain
  match compiled.closest? chain with
  | none => ⟨none, compiled.reports⟩
  | some d =>
    let answer := e.query expression [d]
    ⟨answer.value, compiled.reports ++ answer.reports⟩

end Engine

end DocQuery
