/-
What a user of the library can set.

* `Options` — how moments are read, and what becomes of a result that is undefined;
* `Options.standard` — the options that are used unless others are given.
-/
namespace DocQuery

/-- The options of compilations and queries. -/
structure Options where
  /-- the patterns by which a text is read as a moment, after the form of RFC 3339 -/
  momentPatterns : List String
  /-- whether a computed value that is undefined is removed; otherwise it is reported -/
  removesUndefined : Bool
deriving DecidableEq, Repr

/-- The standard options. -/
def Options.standard : Options where
  momentPatterns := ["%Y-%m-%d %H:%M:%S", "%Y-%m-%dT%H:%M:%S", "%Y-%m-%d"]
  removesUndefined := true

end DocQuery
