/-
The program: reads the clock and the files that the command line names, and prints the answer.
-/
import DocQuery.CommandLine
import Std.Time.DateTime.Timestamp

namespace DocQuery

open Time (Moment)

/-- The present moment in universal time. -/
def presentMoment : IO Moment := do
  let duration := (← Std.Time.Timestamp.now).toDurationSinceUnixEpoch
  let moment := Moment.sinceEpoch? duration.second.val duration.nano.val.toNat
  return moment.getD (.midnight ⟨1970, 1, 1⟩)

/-- Why a file cannot be read. -/
def explain : IO.Error → String
  | .noFileOrDirectory _ _ _ => "No such file or directory (os error 2)"
  | .permissionDenied _ _ _ => "Permission denied (os error 13)"
  | .inappropriateType _ 20 _ => "Not a directory (os error 20)"
  | .inappropriateType _ _ _ => "Is a directory (os error 21)"
  | e => toString e

/-- The contents of a file, or why it cannot be read. -/
def readText (path : String) : IO (Except String String) := do
  try
    let bytes ← IO.FS.readBinFile path
    return match String.fromUTF8? bytes with
      | some text => .ok text
      | none => .error "stream did not contain valid UTF-8"
  catch e => return .error (explain e)

/-- The contents of files, by their paths. -/
def readFiles : List String → IO (List (String × Except String String))
  | [] => return []
  | path :: paths => do
    let rest ← readFiles paths
    return (path, ← readText path) :: rest

/-- The paths that a command line names. -/
def pathsIn (arguments : List String) : List String :=
  match Invocation.read? arguments with
  | .ok i => i.documents
  | .error _ => []

end DocQuery

/-- Answers one query. -/
def main (arguments : List String) : IO UInt32 := do
  let files ← DocQuery.readFiles (DocQuery.pathsIn arguments)
  let contents (path : String) := (files.lookup path).getD (.error "not read")
  let engine : DocQuery.Engine := ⟨.standard, .standard, ← DocQuery.presentMoment⟩
  let response := DocQuery.respondTo engine contents arguments
  IO.print response.output
  for line in response.errors do
    IO.eprintln line
  return UInt32.ofNat response.code
