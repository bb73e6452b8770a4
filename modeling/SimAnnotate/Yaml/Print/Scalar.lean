import SimAnnotate.Yaml.Plain
import SimAnnotate.Yaml.Token

/-!
# How scalars are written

A string stands without quotes where that reads back as the same string, and as
a literal block where it has line feeds and a block can hold it. Otherwise it
is in single quotes, or in double quotes where only escapes can write it.
-/

namespace SimAnnotate.Yaml

/-! ## Traits of a text -/

namespace Text

/-- The characters that are written without an escape. -/
def isPrintable (c : Char) : Bool :=
  c = '\n' || (' ' ≤ c && c ≤ '~')
    || ('\u00a0' ≤ c && c ≤ '\ufffd' && c ≠ '\ufeff') || 0x10000 ≤ c.toNat

/-- Whether two neighbours satisfy `p` and `q`. -/
def hasPair (p q : Char → Bool) : List Char → Bool
  | a :: b :: rest => (p a && q b) || hasPair p q (b :: rest)
  | _ => false

def hasBreak (cs : List Char) : Bool := cs.any isBreak

def isSpaceOrBreak (c : Char) : Bool := isSpace c || isBreak c

/-- The first characters that say that something else than a plain scalar
follows. -/
def isOpening (c : Char) : Bool :=
  c ∈ "#,[]\x7b\x7d&*!|>'\"%@\x60".toList

def startsWithMarks : List Char → Bool
  | '-' :: '-' :: '-' :: _ => true
  | '.' :: '.' :: '.' :: _ => true
  | _ => false

/-- Whether a colon before a gap or a comment mark behind one occurs. -/
def hasInnerMark : List Char → Bool
  | a :: b :: rest =>
      (b = ':' && atGap rest) || (isBlank a && b = '#')
        || hasInnerMark (b :: rest)
  | _ => false

/-- Whether the text would read as something else than a plain scalar. -/
def hasIndicator (cs : List Char) : Bool :=
  match cs with
  | c :: rest =>
      startsWithMarks cs || isOpening c
        || (c ∈ ['?', ':', '-'] && atGap rest) || hasInnerMark cs
  | [] => false

/-- Whether the text can stand without quotes. -/
def plainAllowed (cs : List Char) : Bool :=
  cs.all isPrintable && !hasBreak cs && !hasIndicator cs
    && !cs.head?.any isSpace && !cs.getLast?.any isSpace

def singleAllowed (cs : List Char) : Bool :=
  cs.all isPrintable && !hasPair isSpace isBreak cs
    && !hasPair isBreak isSpace cs

def literalAllowed (cs : List Char) : Bool :=
  cs.all isPrintable && !hasPair isSpace isBreak cs
    && !cs.getLast?.any isSpace

end Text

/-! ## Forms -/

inductive ScalarForm where
  | plain
  | single
  | double
  | literal
deriving DecidableEq

namespace ScalarForm

/-- Whether the text without quotes would be read as the same string by every
reader. -/
def isUnambiguous (s : String) : Bool :=
  Plain.read s = .text && !Plain.isPaddedDigits s.toList

/-- The form in which a string is written. -/
def ofString (s : String) : ScalarForm :=
  let cs := s.toList
  if '\n' ∈ cs then
    if Text.literalAllowed cs then .literal else .double
  else if isUnambiguous s && Text.plainAllowed cs then .plain
  else if Text.singleAllowed cs then .single
  else .double

end ScalarForm

namespace Text

def spaces (n : Nat) : List Char := List.replicate n ' '

/-- The text with every line that is not empty indented by `n`. `fresh` says
whether a line begins here. -/
def indented (n : Nat) : Bool → List Char → List Char
  | _, [] => []
  | fresh, c :: rest =>
      if isBreak c then c :: indented n true rest
      else (if fresh then spaces n else []) ++ c :: indented n false rest

/-- Whether the text ends with the end of a line. -/
def endsLine (cs : List Char) : Bool := cs.getLast?.any isBreak

def single (n : Nat) (cs : List Char) : List Char :=
  let body := indented n false cs
  '\'' :: body.flatMap (fun c => if c = '\'' then ['\'', '\''] else [c])
    ++ (if endsLine cs then spaces n else []) ++ ['\'']

def hexDigits (width n : Nat) : List Char :=
  let ds := (Nat.toDigits 16 n).map Char.toUpper
  List.replicate (width - ds.length) '0' ++ ds

/-- The escape of a character inside double quotes. -/
def escape (c : Char) : List Char :=
  let short (x : Char) := ['\\', x]
  match c with
  | '\x00' => short '0'
  | '\x07' => short 'a'
  | '\x08' => short 'b'
  | '\t' => short 't'
  | '\n' => short 'n'
  | '\x0b' => short 'v'
  | '\x0c' => short 'f'
  | '\r' => short 'r'
  | '\x1b' => short 'e'
  | '"' => short '"'
  | '\\' => short '\\'
  | '\u0085' => short 'N'
  | '\u2028' => short 'L'
  | '\u2029' => short 'P'
  | c =>
      if c.toNat ≤ 0xff then short 'x' ++ hexDigits 2 c.toNat
      else if c.toNat ≤ 0xffff then short 'u' ++ hexDigits 4 c.toNat
      else short 'U' ++ hexDigits 8 c.toNat

def double (cs : List Char) : List Char :=
  '"' :: cs.flatMap (fun c =>
    if isPrintable c && !isBreak c && c ≠ '"' && c ≠ '\\' then [c]
    else escape c) ++ ['"']

/-- What a literal block says about the line ends at its end: none, more than
the one that is usual, or nothing. -/
def chompMark (cs : List Char) : List Char :=
  match cs.reverse with
  | a :: rest =>
      if !isBreak a then ['-']
      else if rest.head?.all isBreak then ['+']
      else []
  | [] => ['-']

def literal (n : Nat) (cs : List Char) : List Char :=
  let width := if cs.head?.any isSpaceOrBreak then ['2'] else []
  '|' :: width ++ chompMark cs ++ '\n' :: indented n true cs

/-- A string in its form; its lines are indented by `n`. -/
def scalar (n : Nat) (s : String) : List Char :=
  let cs := s.toList
  match ScalarForm.ofString s with
  | .plain => cs
  | .single => single n cs
  | .double => double cs
  | .literal => literal n cs

/-- A tag's name without a mark in front. -/
def tagBody (name : String) : List Char :=
  match name.toList with
  | '!' :: rest => rest
  | cs => cs

/-- The octets of a tag with its mark. -/
def tagSize (name : String) : Nat :=
  (String.ofList (tagBody name)).utf8ByteSize + 1

/-- A tag as it is written, characters without a place in a tag escaped. A tag
that is only the mark is written verbatim. -/
def tag (name : String) : List Char :=
  match tagBody name with
  | [] => "!<%21>".toList
  | cs =>
      '!' :: cs.flatMap fun c =>
        if isWord c || c ∈ ";/?:@&=+$,.~*'()[]".toList then [c]
        else (octets (String.singleton c)).flatMap fun b =>
          '%' :: hexDigits 2 b.toNat

end Text

end SimAnnotate.Yaml
