/-!
# Paths

A path is kept as it was written. Two texts name the same path when their parts
agree: repeated slashes and inner dots do not count, but a dot in front does,
and no two dots are ever resolved here.

* `Path.parts` is the view by which paths are compared.
* `Path.join` appends, and `Path.below?` takes a base away again.
-/

namespace SimAnnotate

/-- A path as it was written. -/
structure Path where
  text : String
deriving DecidableEq, Inhabited

namespace Path

/-- One part of a path. -/
inductive Part where
  | root
  | here
  | up
  | name (s : String)
deriving DecidableEq

/-- What stands between the slashes of a text. -/
def splitSlashes : List Char → List (List Char)
  | [] => [[]]
  | c :: rest =>
      if c = '/' then [] :: splitSlashes rest
      else
        match splitSlashes rest with
        | s :: ss => (c :: s) :: ss
        | [] => [[c]]

def segments (p : Path) : List (List Char) := splitSlashes p.text.toList

def isAbsolute (p : Path) : Bool := p.text.toList.head? == some '/'

/-- A segment that stands for no part, unless it is the first. -/
def isIdle (s : List Char) : Bool := s.isEmpty || s == ['.']

/-- The part that a segment stands for behind another one. -/
def innerPart? (s : List Char) : Option Part :=
  if isIdle s then none
  else if s = ['.', '.'] then some .up
  else some (.name (String.ofList s))

/-- The part that the first segment of a text that is not empty stands for. -/
def firstPart? (s : List Char) : Option Part :=
  if s.isEmpty then some .root
  else if s = ['.'] then some .here
  else innerPart? s

/-- The parts of a path, in order. -/
def parts (p : Path) : List Part :=
  match p.segments with
  | [[]] => []
  | first :: rest => (firstPart? first).toList ++ rest.filterMap innerPart?
  | [] => []

/-- Whether two texts name the same path. -/
def same (p q : Path) : Bool := p.parts == q.parts

/-- A path below another one; an absolute path stands for itself. -/
def join (p : Path) (name : String) : Path :=
  if (Path.mk name).isAbsolute then ⟨name⟩
  else
    let cs := p.text.toList
    if cs.isEmpty || cs.getLast? == some '/' then ⟨p.text ++ name⟩
    else ⟨p.text ++ "/" ++ name⟩

/-- The path that names lead to, one below the other. -/
def descend (p : Path) (names : List String) : Path := names.foldl join p

/-- Takes parts away from the segments behind the first. -/
def dropParts? : List Part → List (List Char) → Option (List (List Char))
  | [], segs => some segs
  | _ :: _, [] => none
  | b :: bs, s :: rest =>
      match innerPart? s with
      | none => dropParts? (b :: bs) rest
      | some part => if part = b then dropParts? bs rest else none

/-- The segments without idle ones at their end. -/
def trimEnd (segs : List (List Char)) : List (List Char) :=
  (segs.reverse.dropWhile isIdle).reverse

/-- The text of segments. -/
def ofSegments (segs : List (List Char)) : String :=
  String.ofList (List.intercalate ['/'] segs)

/-- The text of a path without idle segments at its end; a root or a dot in
front stays. -/
def trimmed (p : Path) : String :=
  match p.segments with
  | first :: rest =>
      let inner := trimEnd rest
      if p.isAbsolute && inner.isEmpty then "/"
      else ofSegments (first :: inner)
  | [] => ""

/-- The text of what is left of a path below `base`; nothing when the path does
not begin with the parts of `base`. -/
def below? (p base : Path) : Option String :=
  match base.parts with
  | [] => some p.trimmed
  | b :: bs =>
      match p.segments with
      | [[]] => none
      | first :: rest =>
          let rest? :=
            match firstPart? first with
            | some part => if part = b then dropParts? bs rest else none
            | none => dropParts? (b :: bs) rest
          rest?.map fun segs =>
            ofSegments (trimEnd (segs.dropWhile isIdle))
      | [] => none

/-- What stands behind the last dot of a file name, a dot in front not
counted. -/
def extension? (p : Path) : Option String :=
  match p.parts.getLast? with
  | some (.name s) =>
      let cs := s.toList.reverse
      let ext := cs.takeWhile (· ≠ '.')
      match cs.drop ext.length with
      | '.' :: _ :: _ => some (String.ofList ext.reverse)
      | _ => none
  | _ => none

end Path

end SimAnnotate
