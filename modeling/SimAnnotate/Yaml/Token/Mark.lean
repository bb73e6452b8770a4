import SimAnnotate.Yaml.Token

/-!
# Places in a text

A `Mark` counts the octets and lines before a place, and the characters before
it on its line. A `Cursor` is a mark with the text that is left there. The lines
of a `Gap` are what stands between two words of a scalar that goes on over line
ends.
-/

namespace SimAnnotate.Yaml

structure Mark where
  offset : Nat
  line : Nat
  column : Nat
deriving DecidableEq

namespace Mark

def start : Mark := ⟨0, 0, 0⟩

/-- The place after one more character. -/
def next (m : Mark) (c : Char) : Mark :=
  if Text.isBreak c then ⟨m.offset + c.utf8Size, m.line + 1, 0⟩
  else ⟨m.offset + c.utf8Size, m.line, m.column + 1⟩

/-- The place after characters none of which ends a line. -/
def along (m : Mark) (cs : List Char) : Mark :=
  ⟨cs.foldl (fun n c => n + c.utf8Size) m.offset, m.line, m.column + cs.length⟩

end Mark

structure Cursor where
  mark : Mark
  rest : List Char

namespace Cursor

/-- After one character. -/
def skip : Cursor → Cursor
  | ⟨m, []⟩ => ⟨m, []⟩
  | ⟨m, c :: rest⟩ => ⟨m.next c, rest⟩

/-- After `n` characters none of which ends a line. -/
def along (c : Cursor) (n : Nat) : Cursor :=
  ⟨c.mark.along (c.rest.take n), c.rest.drop n⟩

/-- The characters up to the first outside `p`, and the place after them. No
character that ends a line is in `p`. -/
def takeWhile (p : Char → Bool) (c : Cursor) : List Char × Cursor :=
  let taken := c.rest.takeWhile p
  (taken, c.along taken.length)

def skipWhile (p : Char → Bool) (c : Cursor) : Cursor := (c.takeWhile p).2

/-- After the line end that stands here, if one does. -/
def skipBreak (c : Cursor) : Cursor :=
  match c.rest with
  | b :: _ => if Text.isBreak b then c.skip else c
  | [] => c

/-- After blanks and a comment, when a line end follows them, at that line
end. -/
def skipLineTail? (c : Cursor) : Option Cursor :=
  let c := c.skipWhile Text.isBlank
  let c := if c.rest.head? = some '#' then c.skipWhile (!Text.isBreak ·) else c
  if Text.atLineEnd c.rest then some c else none

end Cursor

/-! ## Gaps between words -/

/-- Blanks up to the first line end, and the line ends. Once a line has ended
blanks do not count. `tabbed` says that a tab stood left of the required column
at the start of a line. -/
structure Gap where
  blanks : List Char
  breaks : List Char
  tabbed : Bool

namespace Gap

/-- The text of a gap when it is folded: one line feed becomes a space, of
several the first is dropped, and any other line end stays. -/
def folded (g : Gap) : List Char :=
  match g.breaks with
  | [] => g.blanks
  | ['\n'] => [' ']
  | '\n' :: rest => rest
  | breaks => breaks

def afterBlank (g : Gap) (c : Char) (column indent : Nat) : Gap :=
  if g.breaks.isEmpty then { g with blanks := c :: g.blanks }
  else { g with tabbed := g.tabbed || (c = '\t' && column < indent) }

/-- Reads on in a gap whose lists are kept in reverse. -/
def readFrom (indent : Nat) (g : Gap) (m : Mark) : List Char → Gap × Cursor
  | [] => (⟨g.blanks.reverse, g.breaks.reverse, g.tabbed⟩, ⟨m, []⟩)
  | c :: rest =>
      if Text.isBlank c then
        readFrom indent (g.afterBlank c m.column indent) (m.next c) rest
      else if Text.isBreak c then
        readFrom indent { g with blanks := [], breaks := c :: g.breaks }
          (m.next c) rest
      else (⟨g.blanks.reverse, g.breaks.reverse, g.tabbed⟩, ⟨m, c :: rest⟩)

/-- The gap that begins here, for text that has to stay right of column
`indent`. -/
def read (indent : Nat) (c : Cursor) : Gap × Cursor :=
  readFrom indent ⟨[], [], false⟩ c.mark c.rest

/-- The gap that begins after a line end which does not count. -/
def readAfterBreak (c : Cursor) : List Char × Cursor :=
  let (g, c') := readFrom 0 ⟨[], ['\n'], false⟩ c.mark c.rest
  (g.breaks.drop 1, c')

end Gap

end SimAnnotate.Yaml
