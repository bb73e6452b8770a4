import SimAnnotate.Yaml.Token.Scalar

/-!
# From text to tokens

`Token.scan` cuts a text into tokens. A colon can make the word before it on
the same line a mapping key, so the lexer remembers the words that may still
become keys: one for the block context and one for each open flow collection.
When the colon comes, `key` is put in front of the remembered word.

Where the text goes on without a token, the tokens end with `fault`, in place
of the first word that could still have become a key. So they do where the text
goes on but cannot be read.
-/

namespace SimAnnotate.Yaml

/-- A word that becomes a mapping key when a colon follows. It is `required`
when nothing but a key can stand at its place. -/
structure PendingKey where
  /-- How many tokens stand before the word. -/
  position : Nat
  mark : Mark
  required : Bool

/-- Whether the place `m` is still on the line of the word and not too far. -/
def PendingKey.reaches (k : PendingKey) (m : Mark) : Bool :=
  k.mark.line == m.line && m.offset ≤ k.mark.offset + 1024

structure Lexer where
  cursor : Cursor
  tokens : Array Token
  /-- The columns of the open block collections, innermost first. -/
  columns : List Nat
  /-- The pending key of the innermost flow collection or of the block
  context. -/
  pending : Option PendingKey
  /-- The pending keys around the open flow collections, innermost first. -/
  outer : List (Option PendingKey)
  keyAllowed : Bool
  /-- Whether the text goes on behind its end, where it cannot be read. -/
  truncated : Bool

namespace Lexer

def start (cs : List Char) (truncated : Bool) : Lexer :=
  ⟨⟨Mark.start, cs⟩, #[], [], none, [], true, truncated⟩

def rest (l : Lexer) : List Char := l.cursor.rest

def column (l : Lexer) : Nat := l.cursor.mark.column

def inFlow (l : Lexer) : Bool := !l.outer.isEmpty

def emit (l : Lexer) (t : Token) : Lexer :=
  { l with tokens := l.tokens.push t }

/-- Passes `n` characters that make up the token. -/
def emitAlong (l : Lexer) (n : Nat) (t : Token) : Lexer :=
  { l.emit t with cursor := l.cursor.along n }

def allowKey (l : Lexer) (allowed : Bool) : Lexer :=
  { l with keyAllowed := allowed }

/-! ## Pending keys -/

/-- Without a pending key that is out of reach; nothing when it is required. -/
def refresh? (m : Mark) : Option PendingKey → Option (Option PendingKey)
  | none => some none
  | some k =>
      if k.reaches m then some (some k)
      else if k.required then none
      else some none

def refreshAll? (l : Lexer) : Option Lexer :=
  match refresh? l.cursor.mark l.pending,
      l.outer.mapM (refresh? l.cursor.mark) with
  | some pending, some outer => some { l with pending, outer }
  | _, _ => none

/-- Gives the pending key up. -/
def dropKey? (l : Lexer) : Option Lexer :=
  if l.pending.any (·.required) then none
  else some { l with pending := none }

/-- Remembers that the word that starts here may become a key. -/
def saveKey? (l : Lexer) : Option Lexer :=
  if l.keyAllowed then
    let required := !l.inFlow && l.columns.head? == some l.column
    l.dropKey?.map fun l =>
      { l with pending := some ⟨l.tokens.size, l.cursor.mark, required⟩ }
  else some l

/-! ## Indentation -/

/-- Closes the block collections right of a column; without a column, all. -/
def closeFrom (column : Option Nat) : List Nat → Array Token →
    List Nat × Array Token
  | [], ts => ([], ts)
  | c :: outer, ts =>
      if column.all (· < c) then
        closeFrom column outer (ts.push .blockEnd)
      else (c :: outer, ts)

def close (l : Lexer) (column : Option Nat) : Lexer :=
  if l.inFlow then l
  else
    let (columns, tokens) := closeFrom column l.columns l.tokens
    { l with columns, tokens }

/-- Whether a block collection at this column lies inside the open ones. -/
def isInside (l : Lexer) (column : Nat) : Bool :=
  !l.inFlow && l.columns.head?.all (· < column)

/-- Opens a block collection at the current column, if it lies inside. -/
def openAt (l : Lexer) (t : Token) : Lexer :=
  if l.isInside l.column then
    { l.emit t with columns := l.column :: l.columns }
  else l

/-! ## Between tokens -/

/-- Passes blanks, comments and line ends, and a byte order mark at the start
of a line. A tab counts as a blank where no block key can begin. Each round
passes a line, so the length of the text bounds the rounds. -/
def skipGap : Nat → Lexer → Lexer
  | 0, l => l
  | fuel + 1, l =>
      let cursor :=
        if l.column = 0 && l.rest.head? = some '\ufeff' then
          l.cursor.along 1
        else l.cursor
      let tabs := l.inFlow || !l.keyAllowed
      let cursor := cursor.skipWhile fun c => c = ' ' || (tabs && c = '\t')
      let cursor :=
        if cursor.rest.head? = some '#' then
          cursor.skipWhile (!Text.isBreak ·)
        else cursor
      match cursor.rest with
      | c :: _ =>
          if Text.isBreak c then
            skipGap fuel
              { l with
                cursor := cursor.skip
                keyAllowed := l.keyAllowed || !l.inFlow }
          else { l with cursor }
      | [] => { l with cursor }

/-! ## Directives -/

/-- A number of at most nine digits. -/
def versionPart? (c : Cursor) : Option (Nat × Cursor) :=
  let (ds, c') := c.takeWhile Char.isDigit
  if ds.isEmpty || 9 < ds.length then none
  else some (ds.foldl (fun n d => n * 10 + (d.toNat - '0'.toNat)) 0, c')

def version? (c : Cursor) : Option (Token × Cursor) :=
  match versionPart? (c.skipWhile Text.isBlank) with
  | some (major, c') =>
      if c'.rest.head? = some '.' then
        (versionPart? (c'.along 1)).map fun (minor, c'') =>
          (.version major minor, c'')
      else none
  | none => none

/-! ## Tags -/

def isUriMark (verbatim : Bool) (c : Char) : Bool :=
  c ∈ ";/?:@&=+$.!~*'()".toList || (verbatim && c ∈ [',', '[', ']'])

/-- The octet that a percent sign and two hexadecimal digits write. -/
def octet? : List Char → Option (UInt8 × List Char)
  | '%' :: a :: b :: rest =>
      match QuotedScalar.hexDigit? a, QuotedScalar.hexDigit? b with
      | some x, some y => some (.ofNat (x * 16 + y), rest)
      | _, _ => none
  | _ => none

/-- How many octets have to follow a first one. -/
def followers? (first : UInt8) : Option Nat :=
  if first < 0x80 then some 0
  else if 0xc0 ≤ first && first < 0xe0 then some 1
  else if 0xe0 ≤ first && first < 0xf0 then some 2
  else if 0xf0 ≤ first && first < 0xf8 then some 3
  else none

/-- The `n` octets that have to follow a first one. -/
def following? : Nat → List Char → Option (Octets × List Char)
  | 0, cs => some ([], cs)
  | n + 1, cs =>
      match octet? cs with
      | some (o, rest) =>
          if 0x80 ≤ o && o < 0xc0 then
            (following? n rest).map fun (more, rest') => (o :: more, rest')
          else none
      | none => none

/-- The escaped octets of one character. Only their form is looked at: they can
be longer than they need to be, or stand for no character. -/
def escaped? (cs : List Char) : Option (Octets × List Char) :=
  match octet? cs with
  | some (first, rest) =>
      match followers? first with
      | some n =>
          (following? n rest).map fun (more, rest') => (first :: more, rest')
      | none => none
  | none => none

/-- The octets of a tag, escapes decoded, in reverse and before `acc`. Each
round passes a character, so the length of the text bounds the rounds. -/
def uriFrom? (verbatim : Bool) : Nat → Octets → List Char →
    Option (Octets × List Char)
  | 0, acc, cs => some (acc, cs)
  | fuel + 1, acc, cs =>
      match cs with
      | '%' :: _ =>
          match escaped? cs with
          | some (os, rest) => uriFrom? verbatim fuel (os.reverse ++ acc) rest
          | none => none
      | c :: rest =>
          if Text.isWord c || isUriMark verbatim c then
            uriFrom? verbatim fuel (.ofNat c.toNat :: acc) rest
          else some (acc, cs)
      | [] => some (acc, [])

def uri? (verbatim : Bool) (c : Cursor) : Option (Octets × Cursor) :=
  (uriFrom? verbatim c.rest.length [] c.rest).map fun (acc, rest) =>
    (acc.reverse, c.along (c.rest.length - rest.length))

/-- The octets up to the first zero, which ends a tag. -/
def upToZero (os : Octets) : Octets := os.takeWhile (· ≠ 0)

/-- A tag handle: a mark, letters, and a second mark if there is one. -/
def tagHandle (c : Cursor) : List Char × Cursor :=
  let (name, c') := (c.along 1).takeWhile Text.isWord
  if c'.rest.head? = some '!' then ('!' :: name ++ ['!'], c'.along 1)
  else ('!' :: name, c')

def tagDirective? (c : Cursor) : Option (Token × Cursor) :=
  let c := c.skipWhile Text.isBlank
  if c.rest.head? ≠ some '!' then none
  else
    let (handle, c') := tagHandle c
    if handle ≠ ['!'] && handle.getLast? ≠ some '!' then none
    else if c'.rest.head?.any Text.isBlank then
      match uri? true (c'.skipWhile Text.isBlank) with
      | some (stem, c'') =>
          if stem.isEmpty || !Text.atGap c''.rest then none
          else
            some (.tagDirective (String.ofList handle) (upToZero stem), c'')
      | none => none
    else none

def directive? (c : Cursor) : Option (Token × Cursor) :=
  let (name, c') := (c.along 1).takeWhile Text.isWord
  if !Text.atGap c'.rest then none
  else
    let found :=
      if name = "YAML".toList then version? c'
      else if name = "TAG".toList then tagDirective? c'
      else none
    found.bind fun (t, c'') =>
      c''.skipLineTail?.map fun c₃ => (t, c₃.skipBreak)

/-- A tag with its handle. A lone mark is a tag without a handle. -/
def tag? (c : Cursor) : Option (Token × Cursor) :=
  match c.rest with
  | '!' :: '<' :: _ =>
      match uri? true (c.along 2) with
      | some (uri, c') =>
          if uri.isEmpty || c'.rest.head? ≠ some '>' then none
          else some (.tag "" (upToZero uri), c'.along 1)
      | none => none
  | _ =>
      let (handle, c') := tagHandle c
      match uri? false c' with
      | some (uri, c'') =>
          if 2 ≤ handle.length && handle.getLast? = some '!' then
            if uri.isEmpty then none
            else some (.tag (String.ofList handle) (upToZero uri), c'')
          else
            let name := Text.octets (String.ofList (handle.drop 1))
            let suffix := upToZero (name ++ uri)
            if suffix.isEmpty then some (.tag "" (Text.octets "!"), c'')
            else some (.tag "!" suffix, c'')
      | none => none

/-! ## Fetching a token -/

/-- Ends the block collections and gives the pending key up, as in front of a
new document. -/
def leaveDocument? (l : Lexer) : Option Lexer :=
  (l.close none).dropKey?.map (·.allowKey false)

def flowStart? (l : Lexer) (t : Token) : Option Lexer :=
  l.saveKey?.map fun l =>
    { l.emitAlong 1 t with
      pending := none, outer := l.pending :: l.outer, keyAllowed := true }

def flowEnd? (l : Lexer) (t : Token) : Option Lexer :=
  l.dropKey?.map fun l =>
    let l := (l.emitAlong 1 t).allowKey false
    match l.outer with
    | k :: outer => { l with pending := k, outer }
    | [] => l

/-- In the block context a mark that can open a collection needs a place where
a key could begin. -/
def openBlock? (l : Lexer) (t : Token) : Option Lexer :=
  if l.inFlow then some l
  else if l.keyAllowed then some (l.openAt t)
  else none

def blockEntry? (l : Lexer) : Option Lexer :=
  match l.openBlock? .blockSequenceStart with
  | some l =>
      l.dropKey?.map fun l => (l.emitAlong 1 .blockEntry).allowKey true
  | none => none

def key? (l : Lexer) : Option Lexer :=
  match l.openBlock? .blockMappingStart with
  | some l =>
      l.dropKey?.map fun l => (l.emitAlong 1 .key).allowKey (!l.inFlow)
  | none => none

/-- The tokens `ts` put in front of the token at position `n`. -/
def insertAt (tokens : Array Token) (n : Nat) (ts : List Token) :
    Array Token :=
  (tokens.toList.take n ++ ts ++ tokens.toList.drop n).toArray

def value? (l : Lexer) : Option Lexer :=
  match l.pending with
  | some k =>
      let opened := l.isInside k.mark.column
      let ts := if opened then [.blockMappingStart, .key] else [.key]
      let columns := if opened then k.mark.column :: l.columns else l.columns
      let l :=
        { l with
          tokens := insertAt l.tokens k.position ts
          columns, pending := none, keyAllowed := false }
      some (l.emitAlong 1 .value)
  | none =>
      (l.openBlock? .blockMappingStart).map fun l =>
        (l.emitAlong 1 .value).allowKey (!l.inFlow)

/-- Reads a word that can become a key. -/
def keyWord? (l : Lexer) (read : Cursor → Option (Token × Cursor)) :
    Option Lexer :=
  match l.saveKey? with
  | some l =>
      (read l.cursor).map fun (t, cursor) =>
        { l.emit t with cursor, keyAllowed := false }
  | none => none

/-- The name behind the mark of an anchor or a reference to one. -/
def name? (make : String → Token) (c : Cursor) : Option (Token × Cursor) :=
  let (name, c') := (c.along 1).takeWhile Text.isWord
  let ends := Text.atGap c'.rest ||
    c'.rest.head?.any (· ∈ "?:,]\x7d%@\x60".toList)
  if name.isEmpty || !ends then none
  else some (make (String.ofList name), c')

def isTagEnd (inFlow : Bool) (cs : List Char) : Bool :=
  Text.atGap cs || (inFlow && cs.head? = some ',')

def blockScalar? (l : Lexer) (literal : Bool) : Option Lexer :=
  match l.dropKey? with
  | some l =>
      (BlockScalar.read? literal l.columns.head? l.cursor).map
        fun (text, cursor) =>
          { l.emit (.scalar text false) with cursor, keyAllowed := true }
  | none => none

/-- A plain scalar has to stay right of the innermost block collection. After
one that goes on over line ends a key can begin. -/
def plainScalar? (l : Lexer) : Option Lexer :=
  match l.saveKey? with
  | some l =>
      let indent := (l.columns.head?.map (· + 1)).getD 0
      (PlainScalar.read? l.inFlow indent l.cursor).map
        fun (text, broken, cursor) =>
          { l.emit (.scalar text true) with cursor, keyAllowed := broken }
  | none => none

/-- The characters that begin something else than a plain scalar. -/
def isIndicator (c : Char) : Bool :=
  c ∈ "-?:,[]\x7b\x7d#&*!|>'\"%@\x60".toList

/-- Whether a plain scalar begins here. -/
def startsPlain (inFlow : Bool) : List Char → Bool
  | c :: rest =>
      !(Text.atGap (c :: rest) || isIndicator c)
        || (c = '-' && !rest.head?.any Text.isBlank)
        || (!inFlow && (c = '?' || c = ':') && !Text.atGap rest)
  | [] => false

/-- The token that begins here. -/
def fetch? (l : Lexer) : Option Lexer :=
  if l.column = 0 && l.rest.head? = some '%' then
    l.leaveDocument?.bind fun l =>
      (directive? l.cursor).map fun (t, cursor) => { l.emit t with cursor }
  else if l.column = 0 && Text.atDocumentMark l.rest then
    let t := if l.rest.head? = some '-' then .documentStart else .documentEnd
    l.leaveDocument?.map (·.emitAlong 3 t)
  else
    match l.rest with
    | [] => none
    | '[' :: _ => l.flowStart? .flowSequenceStart
    | '{' :: _ => l.flowStart? .flowMappingStart
    | ']' :: _ => l.flowEnd? .flowSequenceEnd
    | '}' :: _ => l.flowEnd? .flowMappingEnd
    | ',' :: _ =>
        l.dropKey?.map fun l => (l.emitAlong 1 .flowEntry).allowKey true
    | '*' :: _ => l.keyWord? (name? .reference)
    | '&' :: _ => l.keyWord? (name? .anchor)
    | '!' :: _ =>
        l.keyWord? fun c =>
          (tag? c).filter fun (_, c') => isTagEnd l.inFlow c'.rest
    | '\'' :: _ | '"' :: _ =>
        l.keyWord? fun c =>
          (QuotedScalar.read? c).map fun (text, c') =>
            (.scalar text false, c')
    | c :: rest =>
        let gap := Text.atGap rest
        if c = '-' && gap then l.blockEntry?
        else if c = '?' && (l.inFlow || gap) then l.key?
        else if c = ':' && (l.inFlow || gap) then l.value?
        else if c = '|' && !l.inFlow then l.blockScalar? true
        else if c = '>' && !l.inFlow then l.blockScalar? false
        else if startsPlain l.inFlow l.rest then l.plainScalar?
        else none

/-- The first position whose token could still change. -/
def settled (l : Lexer) : Nat :=
  (l.pending :: l.outer).foldl
    (fun n k => min n ((k.map (·.position)).getD n)) l.tokens.size

/-- The tokens of a text that cannot be read on. -/
def failed (l : Lexer) : List Token :=
  l.tokens.toList.take l.settled ++ [.fault]

/-- Whether fewer characters can be read than the next token may need. -/
def isStarved (l : Lexer) : Bool := l.truncated && (l.rest.drop 3).isEmpty

/-- One token, or all of them when the text is at its end. -/
def step (l : Lexer) : Lexer ⊕ List Token :=
  match l.refreshAll? with
  | none => .inr l.failed
  | some l =>
      match (l.skipGap (l.rest.length + 1)).refreshAll? with
      | none => .inr l.failed
      | some l' =>
          if l'.isStarved then .inr l.failed
          else if l'.rest.isEmpty then
            match l'.leaveDocument? with
            | some l'' => .inr l''.tokens.toList
            | none => .inr l.failed
          else
            match (l'.close (some l'.column)).fetch? with
            | some l'' => .inl l''
            | none => .inr l.failed

/-- Each token passes at least one character, so the length of the text bounds
the steps. -/
def run : Nat → Lexer → List Token
  | 0, l => l.failed
  | fuel + 1, l =>
      match l.step with
      | .inl l' => run fuel l'
      | .inr ts => ts

end Lexer

/-- The tokens of a text. -/
def Token.scan (whole : List Char) : List Token :=
  let readable := Text.readable whole
  let cs := Text.unifyBreaks readable
  Lexer.run (cs.length + 1)
    (Lexer.start cs (readable.length < whole.length))

end SimAnnotate.Yaml
