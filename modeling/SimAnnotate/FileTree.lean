import SimAnnotate.OrderedMap
import SimAnnotate.Path

/-!
# File trees

Files and directories, each under its `Place`, the names that lead to it from
the root. A path is followed to a place name by name, from the root or from the
working directory; the ways in which that can fail, and what can be done at the
place it leads to, are those of a usual file system.

The operations that change the tree change it at one place only, apart from
`makeDirectories`. The system may refuse a change, be it for want of a
permission or of room or because it lets nothing be written there at all; what
is refused is as it was before.
-/

namespace SimAnnotate

/-- The answer of a system that lets nothing be changed, such as number 13,
Permission denied. -/
structure Refusal where
  code : Nat
  reason : String
deriving DecidableEq

/-- Why a file operation fails. -/
inductive FileError where
  | missing
  | exists
  | notDirectory
  | isDirectory
  | nameTooLong
  /-- A path holds the character zero. -/
  | zeroInPath
  /-- The content is no text. -/
  | notText
  /-- A change is refused. -/
  | refused (r : Refusal)
deriving DecidableEq

namespace FileError

def message : FileError → String
  | .missing => "No such file or directory (os error 2)"
  | .exists => "File exists (os error 17)"
  | .notDirectory => "Not a directory (os error 20)"
  | .isDirectory => "Is a directory (os error 21)"
  | .nameTooLong => "File name too long (os error 36)"
  | .zeroInPath => "file name contained an unexpected NUL byte"
  | .notText => "stream did not contain valid UTF-8"
  | .refused r => r.reason ++ " (os error " ++ toString r.code ++ ")"

end FileError

inductive FileEntry where
  | file (content : ByteArray)
  | directory

/-- Equality of entries is decidable. -/
instance : DecidableEq FileEntry
  | .file a, .file b =>
      if h : a.data = b.data then
        isTrue (congrArg FileEntry.file (ByteArray.ext h))
      else isFalse fun e => h (congrArg ByteArray.data (FileEntry.file.inj e))
  | .directory, .directory => isTrue rfl
  | .file _, .directory => isFalse nofun
  | .directory, .file _ => isFalse nofun

/-- The names that lead from the root to an entry. -/
abbrev Place := List String

structure FileTree where
  entries : OrderedMap Place FileEntry
  /-- The working directory. -/
  home : Place
  /-- Places where a change is refused, as it is at all places below them. -/
  refusals : List (Place × Refusal)
deriving DecidableEq

namespace FileTree

/-- What is at a place. The root itself is always there. -/
def entry? (t : FileTree) (place : Place) : Option FileEntry :=
  if place = [] then some .directory else t.entries.get? place

/-- Why nothing can be changed at a place. -/
def refusal? (t : FileTree) (place : Place) : Option Refusal :=
  (t.refusals.find? (·.1.isPrefixOf place)).map (·.2)

def put (t : FileTree) (place : Place) (e : FileEntry) : FileTree :=
  { t with entries := t.entries.insert place e }

/-- The tree without what is at a place. -/
def erase (t : FileTree) (place : Place) : FileTree :=
  { t with entries := t.entries.erase place }

/-! ## Following paths -/

/-- The octets that one name may have. -/
def nameLimit : Nat := 255

/-- The octets that a path has to stay below. -/
def pathLimit : Nat := 4096

/-- Why a text cannot be followed as a path at all. -/
def fault? (p : Path) : Option FileError :=
  if p.text.toList.contains '\x00' then some .zeroInPath
  else if p.text = "" then some .missing
  else if pathLimit ≤ p.text.utf8ByteSize then some .nameTooLong
  else none

/-- Goes on from a place, which has to be a directory. -/
def enter (t : FileTree) (place : Place) (segment : List Char) :
    Except FileError Place :=
  match t.entry? place with
  | none => .error .missing
  | some (.file _) => .error .notDirectory
  | some .directory =>
      match Path.innerPart? segment with
      | some (.name s) =>
          if nameLimit < s.utf8ByteSize then .error .nameTooLong
          else .ok (place ++ [s])
      | some .up => .ok place.dropLast
      | _ => .ok place

/-- Where a path begins. -/
def origin (t : FileTree) (p : Path) : Place :=
  if p.isAbsolute then [] else t.home

/-- The place of a path. All directories on the way exist, and where the path
ends with a slash or a dot, so does the last. -/
def locate (t : FileTree) (p : Path) : Except FileError Place :=
  match fault? p with
  | some e => .error e
  | none => p.segments.foldlM t.enter (t.origin p)

/-- The place where a path lets a file be written. -/
def locateFile (t : FileTree) (p : Path) : Except FileError Place := do
  if let some e := fault? p then throw e
  let trimmed := (p.segments.reverse.dropWhile List.isEmpty).reverse
  let place ← trimmed.foldlM t.enter (t.origin p)
  if trimmed ≠ p.segments then throw .isDirectory
  if t.entry? place = some .directory then throw .isDirectory
  if let some r := t.refusal? place then throw (.refused r)
  return place

/-! ## Reading -/

def exists? (t : FileTree) (p : Path) : Bool :=
  match t.locate p with
  | .ok place => (t.entry? place).isSome
  | .error _ => false

def read (t : FileTree) (p : Path) : Except FileError ByteArray := do
  match t.entry? (← t.locate p) with
  | some (.file content) => return content
  | some .directory => throw .isDirectory
  | none => throw .missing

def readText (t : FileTree) (p : Path) : Except FileError String := do
  match String.fromUTF8? (← t.read p) with
  | some s => return s
  | none => throw .notText

/-! ## Changing -/

/-- Gives a file a new content; a file that is not there is created. -/
def write (t : FileTree) (p : Path) (content : String) :
    Except FileError FileTree := do
  return t.put (← t.locateFile p) (.file content.toUTF8)

/-- Adds to the end of a file; a file that is not there is created. -/
def append (t : FileTree) (p : Path) (content : String) :
    Except FileError FileTree := do
  let place ← t.locateFile p
  let before :=
    match t.entry? place with
    | some (.file old) => old
    | _ => ByteArray.empty
  return t.put place (.file (before ++ content.toUTF8))

def removeFile (t : FileTree) (p : Path) : Except FileError FileTree := do
  let place ← t.locate p
  match t.entry? place, t.refusal? place with
  | some (.file _), none => return t.erase place
  | some (.file _), some r => throw (.refused r)
  | some .directory, _ => throw .isDirectory
  | none, _ => throw .missing

/-- Makes each directory along `names` that is not there. -/
def makeBelow (t : FileTree) (place : Place) :
    List (List Char) → Except FileError FileTree
  | [] => .ok t
  | segment :: rest => do
      let place ← t.enter place segment
      match t.entry? place with
      | some .directory => t.makeBelow place rest
      | some (.file _) =>
          throw (if rest.all List.isEmpty then .exists else .notDirectory)
      | none =>
          match t.refusal? place with
          | some r => throw (.refused r)
          | none => (t.put place .directory).makeBelow place rest

/-- Makes a directory and those on the way to it, as far as they are not
there. -/
def makeDirectories (t : FileTree) (p : Path) : Except FileError FileTree :=
  match fault? p with
  | some .missing => .ok t
  | some e => .error e
  | none => t.makeBelow (t.origin p) p.segments

/-! ## Walking -/

/-- The order of a walk: directory by directory, names in byte order. -/
def inWalkOrder : Place → Place → Bool
  | [], _ => true
  | _ :: _, [] => false
  | a :: as, b :: bs => if a = b then inWalkOrder as bs else a < b

/-- The names that lead from one place to another one below it. -/
def below? : Place → Place → Option Place
  | [], names => some names
  | a :: as, b :: bs => if a = b then below? as bs else none
  | _ :: _, [] => none

/-- Puts a place in front of the first one that it goes before. -/
def insertInWalkOrder (names : Place) : List Place → List Place
  | [] => [names]
  | other :: rest =>
      if inWalkOrder names other then names :: other :: rest
      else other :: insertInWalkOrder names rest

/-- The names that lead from a place to an entry, if it is a file there. -/
def fileBelow? (place : Place) (e : Place × FileEntry) : Option Place :=
  match e.2 with
  | .file _ => below? place e.1
  | .directory => none

/-- The files at or below a place, by the names that lead from it to them, in
walk order. -/
def filesBelow (t : FileTree) (place : Place) : List Place :=
  (t.entries.entries.filterMap (fileBelow? place)).foldr insertInWalkOrder []

/-- The files at or below a path in walk order, as paths that begin with it. -/
def walk (t : FileTree) (root : Path) : List Path :=
  match t.locate root with
  | .error _ => []
  | .ok place => (t.filesBelow place).map root.descend

end FileTree

end SimAnnotate
