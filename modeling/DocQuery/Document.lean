/-
Documents and the documents that they inherit from.

* `Page` — a document by itself: its name and its value;
* `Document` — a page with the pages that it inherits from, closest first;
* `Document.ofParents` — a page below finished documents.

Design notes: the pages that a document inherits from are flattened when it is made, each name once,
so looking something up is a walk along one list.
-/
import DocQuery.Node

namespace DocQuery

/-- A document by itself. -/
structure Page where
  id : String
  root : Node
deriving Repr

/-- A document and the pages that it inherits from, closest first. -/
structure Document extends Page where
  ancestors : List Page
deriving Repr

/-- The pages with one more at the end, unless there is one of that name already. -/
def addPage (pages : List Page) (page : Page) : List Page :=
  if pages.any fun p => p.id == page.id then pages else pages ++ [page]

namespace Document

/-- A document followed by the pages that it inherits from. -/
def pages (d : Document) : List Page := d.toPage :: d.ancestors

/-- The pages of a list of parents, closest first, each name once. -/
def ancestorsOf (parents : List Document) : List Page :=
  (parents.flatMap pages).foldl addPage []

/-- The page `page` below its parents. -/
def ofParents (page : Page) (parents : List Document) : Document :=
  ⟨page, ancestorsOf parents⟩

/-- The value of a document without its places. -/
def toJson (d : Document) : Json := d.root.toJson

end Document

end DocQuery
