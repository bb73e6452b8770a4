import SimAnnotate.CommandLine

/-!
# The program

Reads the files that a command line names into a file tree, carries the line
out there, and writes back what has changed.
-/

namespace SimAnnotate.Program

/-- The text of a place. -/
def pathText (names : Place) : String := "/" ++ "/".intercalate names

/-- The place that a path leads to by its names alone. -/
def placeOf (home : Place) (p : Path) : Place :=
  p.parts.foldl
    (fun names part =>
      match part with
      | .root => []
      | .here => names
      | .up => names.dropLast
      | .name s => names ++ [s])
    home

/-- The paths that a command works on. -/
def pathsOf : Command → List Path
  | .annotate o => o.sim :: o.rules.toList
  | .patch input table _ => [input, table]

/-- Directories at a place and on the way to it. -/
def addDirectories (t : FileTree) (names : Place) : FileTree :=
  (List.range names.length).foldl
    (fun t n => t.put (names.take (n + 1)) .directory) t

/-- Why a file cannot be changed. It is opened for that and left as it is. -/
def refusalAt (names : Place) : IO (List (Place × Refusal)) := do
  try
    let _ ← IO.FS.Handle.mk (pathText names) .append
    return []
  catch e =>
    match e with
    | .permissionDenied _ code reason => return [(names, ⟨code.toNat, reason⟩)]
    | _ => return []

/-- Reads what is at a place and below it. Links are not followed below. -/
partial def load (t : FileTree) (names : Place) : IO FileTree := do
  let file ← IO.FS.realPath (pathText names)
  if ← file.isDir then
    let mut t := addDirectories t names
    for e in ← file.readDir do
      let info ← e.path.symlinkMetadata
      match info.type with
      | .dir | .file => t ← load t (names ++ [e.fileName])
      | _ => pure ()
    return t
  else
    let content ← IO.FS.readBinFile file
    let refusals := t.refusals ++ (← refusalAt names)
    return (addDirectories { t with refusals } names.dropLast).put names (.file content)

/-- Reads what is at a place, if anything is. -/
def loadIfThere (t : FileTree) (names : Place) : IO FileTree := do
  try load t names catch _ => return t

/-- Makes the files of the system those of a tree. -/
def store (old new : FileTree) : IO Unit := do
  for names in old.entries.keys do
    if (new.entry? names).isNone then IO.FS.removeFile (pathText names)
  for (names, e) in new.entries.entries do
    if old.entry? names ≠ some e then
      match e with
      | .directory => IO.FS.createDirAll (pathText names)
      | .file content => IO.FS.writeBinFile (pathText names) content

/-- The tree that a request works on. -/
def treeFor (r : Request) : IO FileTree := do
  let home := placeOf [] ⟨(← IO.currentDir).toString⟩
  let t := addDirectories ⟨∅, home, []⟩ home
  match r with
  | .run c => (pathsOf c).foldlM (fun t p => loadIfThere t (placeOf home p)) t
  | _ => return t

end SimAnnotate.Program

open SimAnnotate in
def main (args : List String) : IO UInt32 := do
  let old ← Program.treeFor (CommandLine.parse args)
  let (outcome, new) := CommandLine.run args old
  Program.store old new
  IO.print outcome.output
  if let some report := outcome.report then IO.eprintln report
  return outcome.exitCode.toUInt32
