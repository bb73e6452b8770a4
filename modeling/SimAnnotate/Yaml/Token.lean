/-!
# YAML tokens

The words of a YAML text. Indentation appears as tokens: a block collection
has a start and an end of its own, and a mapping key is announced by `key` even
where the text has no mark for it.

The module also names the classes of characters that the text rules speak of.
-/

namespace SimAnnotate.Yaml

abbrev Octets := List UInt8

inductive Token where
  | version (major minor : Nat)
  | tagDirective (handle : String) (stem : Octets)
  | documentStart
  | documentEnd
  | blockSequenceStart
  | blockMappingStart
  | blockEnd
  | flowSequenceStart
  | flowSequenceEnd
  | flowMappingStart
  | flowMappingEnd
  | blockEntry
  | flowEntry
  | key
  | value
  | reference (name : String)
  | anchor (name : String)
  /-- A tag as its handle and the rest, which escapes can make something else
  than text. A verbatim tag has no handle. -/
  | tag (handle : String) (suffix : Octets)
  | scalar (text : String) (plain : Bool)
  /-- The text goes on, but not with a token. -/
  | fault
deriving DecidableEq

namespace Text

def isSpace (c : Char) : Bool := c = ' '

/-- A space or a tab. -/
def isBlank (c : Char) : Bool := c = ' ' || c = '\t'

/-- The ends of a line, once the different spellings of a line feed are one. -/
def isBreak (c : Char) : Bool := c = '\n' || c = '\u2028' || c = '\u2029'

/-- Whether the text is at its end, at the end of a line or at a blank. -/
def atGap : List Char → Bool
  | [] => true
  | c :: _ => isBlank c || isBreak c

/-- Whether the text is at its end or at the end of a line. -/
def atLineEnd : List Char → Bool
  | [] => true
  | c :: _ => isBreak c

/-- The characters of names of anchors, tag handles and directives. -/
def isWord (c : Char) : Bool := c.isAlphanum || c = '_' || c = '-'

/-- The characters that end or separate the parts of a flow collection. -/
def isFlowMark (c : Char) : Bool := c ∈ [',', '[', ']', '{', '}']

/-- The characters that a YAML text may hold. -/
def isAllowed (c : Char) : Bool :=
  c = '\t' || c = '\n' || c = '\r' || (' ' ≤ c && c ≤ '~') || c = '\u0085'
    || ('\u00a0' ≤ c && c ≤ '\ufffd') || 0x10000 ≤ c.toNat

/-- Whether the text begins with `---` or `...` before a gap. -/
def atDocumentMark : List Char → Bool
  | '-' :: '-' :: '-' :: rest => atGap rest
  | '.' :: '.' :: '.' :: rest => atGap rest
  | _ => false

/-- Writes every line feed, carriage return, pair of the two and next-line
character as one line feed. -/
def unifyBreaks : List Char → List Char
  | '\r' :: '\n' :: rest => '\n' :: unifyBreaks rest
  | '\r' :: rest => '\n' :: unifyBreaks rest
  | '\u0085' :: rest => '\n' :: unifyBreaks rest
  | c :: rest => c :: unifyBreaks rest
  | [] => []

/-- How many octets a text is read at a time. -/
def pieceSize : Nat := 16384

/-- Cuts a text into pieces of as many characters as fit in `pieceSize`. The
piece so far is in reverse and has `size` octets. -/
def piecesFrom (size : Nat) (piece : List Char) :
    List Char → List (List Char)
  | [] => [piece.reverse]
  | c :: rest =>
      if size + c.utf8Size ≤ pieceSize then
        piecesFrom (size + c.utf8Size) (c :: piece) rest
      else piece.reverse :: piecesFrom c.utf8Size [c] rest

/-- The text before the first piece with a character that is not allowed. -/
def readable (cs : List Char) : List Char :=
  ((piecesFrom 0 [] cs).takeWhile (·.all isAllowed)).flatten

/-- The octets of a text. -/
def octets (s : String) : Octets := s.toUTF8.toList

end Text

end SimAnnotate.Yaml
