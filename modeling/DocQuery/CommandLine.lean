/-
The command line, up to reading files and printing.

* `Invocation` — what a command line asks for, and `Invocation.read?`, which finds it in the
  arguments;
* `Response` — what is printed and the exit code;
* `respond` — the answer to an invocation, given the contents of files.

Design notes: the first document is the closest one, and each inherits from the next. Files are
asked for from the last one to the first, and the first that cannot be read ends everything. A query
that fails still prints its result, which is then `null`.
-/
import DocQuery.Compilation

namespace DocQuery

/-- What a command line asks for. -/
structure Invocation where
  expression : String
  /-- the documents, closest first -/
  documents : List String
  isVerbose : Bool
deriving DecidableEq, Repr

/-- Arguments read so far. -/
structure Arguments where
  expression : Option String
  /-- the documents, the last one first -/
  documents : List String
  isVerbose : Bool
deriving DecidableEq, Repr

namespace Arguments

/-- The arguments with one that is no option. -/
def addPlain (a : Arguments) (argument : String) : Except String Arguments :=
  match a.expression with
  | none => .ok { a with expression := some argument }
  | some _ => .error ("error: unexpected argument " ++ quoted argument ++ " found")

/-- The path of an argument `--document=path`. -/
def inlineDocument? (argument : String) : Option String :=
  let marker := "--document=".toList
  if marker.isPrefixOf argument.toList then
    some (String.ofList (argument.toList.drop marker.length))
  else none

/-- Whether an argument is an option. -/
def isOption (argument : String) : Bool :=
  argument.toList.head? = some '-' && argument ≠ "-"

/-- Reads arguments. After `--` there are no options. -/
def read (a : Arguments) : (optionsEnd : Bool) → List String → Except String Arguments
  | _, [] => .ok a
  | true, argument :: rest => do
    let next ← a.addPlain argument
    next.read true rest
  | false, "--" :: rest => a.read true rest
  | false, "--verbose" :: rest => { a with isVerbose := true }.read false rest
  | false, ["--document"] =>
    .error "error: a value is required for '--document <DOCUMENT>' but none was supplied"
  | false, "--document" :: path :: rest =>
    { a with documents := path :: a.documents }.read false rest
  | false, argument :: rest =>
    match inlineDocument? argument with
    | some path => { a with documents := path :: a.documents }.read false rest
    | none =>
      if isOption argument then
        .error ("error: unexpected argument " ++ quoted argument ++ " found")
      else do
        let next ← a.addPlain argument
        next.read false rest

end Arguments

/-- The invocation that the arguments spell, or what is wrong with them. -/
def Invocation.read? (arguments : List String) : Except String Invocation := do
  let a ← Arguments.read ⟨none, [], false⟩ false arguments
  match a.expression with
  | some expression => .ok ⟨expression, a.documents.reverse, a.isVerbose⟩
  | none =>
    .error "error: the following required arguments were not provided:\n  <EXPRESSION>"

/-- What is printed and the exit code. -/
structure Response where
  code : Nat
  output : String
  errors : List String
deriving DecidableEq, Repr

/-- The contents of documents, the last one asked for first, or why one of them cannot be read. -/
def readAll (contents : String → Except String String) :
    List String → Except String (List SourceText)
  | [] => .ok []
  | path :: paths => do
    let sources ← readAll contents paths
    match contents path with
    | .ok text => .ok (⟨path, text⟩ :: sources)
    | .error reason => .error ("Cannot read " ++ path ++ ": " ++ reason)

/-- The answer to an invocation. -/
def respond (e : Engine) (contents : String → Except String String) (i : Invocation) : Response :=
  match readAll contents i.documents with
  | .error message => ⟨1, "", [message]⟩
  | .ok sources =>
    let answer :=
      if sources.isEmpty then e.query i.expression [] else e.queryText i.expression sources
    ⟨if answer.reports.isEmpty then 0 else 1, answer.toJson.pretty ++ "\n",
      answer.reports.map Report.render⟩

/-- The answer to a command line. -/
def respondTo (e : Engine) (contents : String → Except String String) (arguments : List String) :
    Response :=
  match Invocation.read? arguments with
  | .error message => ⟨2, "", [message]⟩
  | .ok i => respond e contents i

end DocQuery
