/-!
# Comma-separated tables

`Csv.records` cuts a text into records of fields. A field that begins with a
quote ends with the next quote that is not doubled; what follows up to the
comma still belongs to it. Lines end with a line feed or a carriage return, and
lines without a character do not count.

The text is a list of bytes: whether a field can be read as characters is asked
field by field, and blanks around it are dropped then.
-/

namespace SimAnnotate.Csv

abbrev Bytes := List UInt8

def comma : UInt8 := 0x2c
def quote : UInt8 := 0x22

def isLineEnd (b : UInt8) : Bool := b = 0x0a || b = 0x0d

/-- Where in a record the reading is. -/
inductive State where
  /-- Before the first field of a record. -/
  | start
  /-- Before a field behind a comma. -/
  | fieldStart
  | bare
  | quoted
  /-- Behind a quote inside a quoted field. -/
  | afterQuote
deriving DecidableEq

/-- The record so far, its fields and the bytes of the last one in reverse. -/
structure Partial where
  fields : List Bytes
  field : Bytes

namespace Partial

def empty : Partial := ⟨[], []⟩

def push (p : Partial) (b : UInt8) : Partial := { p with field := b :: p.field }

def endField (p : Partial) : Partial := ⟨p.field.reverse :: p.fields, []⟩

/-- The record that ends here. -/
def record (p : Partial) : List Bytes := p.endField.fields.reverse

end Partial

/-- Reads on with a record that has begun. -/
def recordsFrom : State → Partial → Bytes → List (List Bytes)
  | .start, _, [] => []
  | _, p, [] => [p.record]
  | .start, p, b :: rest =>
      if isLineEnd b then recordsFrom .start p rest
      else if b = quote then recordsFrom .quoted p rest
      else if b = comma then recordsFrom .fieldStart p.endField rest
      else recordsFrom .bare (p.push b) rest
  | .fieldStart, p, b :: rest =>
      if b = quote then recordsFrom .quoted p rest
      else if b = comma then recordsFrom .fieldStart p.endField rest
      else if isLineEnd b then p.record :: recordsFrom .start .empty rest
      else recordsFrom .bare (p.push b) rest
  | .bare, p, b :: rest =>
      if b = comma then recordsFrom .fieldStart p.endField rest
      else if isLineEnd b then p.record :: recordsFrom .start .empty rest
      else recordsFrom .bare (p.push b) rest
  | .quoted, p, b :: rest =>
      if b = quote then recordsFrom .afterQuote p rest
      else recordsFrom .quoted (p.push b) rest
  | .afterQuote, p, b :: rest =>
      if b = quote then recordsFrom .quoted (p.push b) rest
      else if b = comma then recordsFrom .fieldStart p.endField rest
      else if isLineEnd b then p.record :: recordsFrom .start .empty rest
      else recordsFrom .bare (p.push b) rest

/-- The text without a byte order mark in front. -/
def dropMark : Bytes → Bytes
  | 0xef :: 0xbb :: 0xbf :: rest => rest
  | bs => bs

def records (bs : Bytes) : List (List Bytes) :=
  recordsFrom .start .empty (dropMark bs)

/-! ## Fields as text -/

/-- White space in the sense of Unicode. -/
def isBlank (c : Char) : Bool :=
  let n := c.toNat
  (9 ≤ n && n ≤ 13) || n = 0x20 || n = 0x85 || n = 0xa0 || n = 0x1680
    || (0x2000 ≤ n && n ≤ 0x200a) || n = 0x2028 || n = 0x2029 || n = 0x202f
    || n = 0x205f || n = 0x3000

/-- The text without blanks at its ends. -/
def trim (s : String) : String :=
  let cs := s.toList.dropWhile isBlank
  String.ofList ((cs.reverse.dropWhile isBlank).reverse)

def field? (bs : Bytes) : Option String :=
  (String.fromUTF8? ⟨bs.toArray⟩).map trim

/-- The fields of a record; nothing when one of them is no text. -/
def fields? (r : List Bytes) : Option (List String) := r.mapM field?

end SimAnnotate.Csv
