import SimAnnotate.Yaml.Token.Mark

/-!
# Scalars in a text

The three ways to write a scalar: plain, in quotes, and as a block of lines.
Each reader starts at the scalar's first character and gives its text with the
place after it, or nothing where the text is no scalar.
-/

namespace SimAnnotate.Yaml

/-! ## Plain scalars -/

namespace PlainScalar

/-- Whether a colon stands here that ends the scalar. -/
def atValueMark : List Char → Bool
  | ':' :: rest => Text.atGap rest
  | _ => false

/-- Whether a colon stands here that is forbidden inside a flow collection. -/
def atBadColon : List Char → Bool
  | ':' :: c :: _ => Text.isFlowMark c || c = '?'
  | _ => false

/-- The characters up to a gap or the end of the scalar, in reverse and before
`acc`. -/
def word? (flow : Bool) (acc : List Char) (m : Mark) :
    List Char → Option (List Char × Cursor)
  | [] => some (acc, ⟨m, []⟩)
  | c :: rest =>
      if Text.isBlank c || Text.isBreak c then some (acc, ⟨m, c :: rest⟩)
      else if flow && atBadColon (c :: rest) then none
      else if atValueMark (c :: rest) || (flow && Text.isFlowMark c) then
        some (acc, ⟨m, c :: rest⟩)
      else word? flow (c :: acc) (m.next c) rest

/-- Reads words and gaps. `joint` is the folded gap before this place, `broken`
says that it held a line end. Each round passes at least one character, so the
length of the text bounds the rounds. -/
def readFrom? (flow : Bool) (indent : Nat) :
    Nat → List Char → List Char → Bool → Cursor →
      Option (List Char × Bool × Cursor)
  | 0, acc, _, broken, c => some (acc, broken, c)
  | fuel + 1, acc, joint, broken, c =>
      if c.rest.head? = some '#' ||
          (c.mark.column = 0 && Text.atDocumentMark c.rest) then
        some (acc, broken, c)
      else
        match word? flow [] c.mark c.rest with
        | none => none
        | some ([], c') =>
            -- no word: the scalar ends behind the gap
            some (acc, broken, c')
        | some (w, c') =>
            let acc := w ++ (joint.reverse ++ acc)
            if Text.atGap c'.rest && !c'.rest.isEmpty then
              let (g, c'') := Gap.read indent c'
              let broken := !g.breaks.isEmpty
              if g.tabbed then none
              else if !flow && c''.mark.column < indent then
                some (acc, broken, c'')
              else readFrom? flow indent fuel acc g.folded broken c''
            else some (acc, false, c')

/-- A plain scalar whose lines have to stay right of column `indent`, and
whether a line end stands between it and the place after it. -/
def read? (flow : Bool) (indent : Nat) (c : Cursor) :
    Option (String × Bool × Cursor) :=
  (readFrom? flow indent (c.rest.length + 1) [] [] false c).map
    fun (acc, broken, c') => (String.ofList acc.reverse, broken, c')

end PlainScalar

/-! ## Quoted scalars -/

namespace QuotedScalar

def hexDigit? (c : Char) : Option Nat :=
  if c.isDigit then some (c.toNat - '0'.toNat)
  else if 'a' ≤ c ∧ c ≤ 'f' then some (c.toNat - 'a'.toNat + 10)
  else if 'A' ≤ c ∧ c ≤ 'F' then some (c.toNat - 'A'.toNat + 10)
  else none

/-- The number that exactly `n` hexadecimal digits write, and what follows. -/
def hexFrom? : Nat → Nat → List Char → Option (Nat × List Char)
  | 0, value, rest => some (value, rest)
  | n + 1, value, c :: rest =>
      match hexDigit? c with
      | some d => hexFrom? n (value * 16 + d) rest
      | none => none
  | _ + 1, _, [] => none

/-- The character with the code point that `n` hexadecimal digits write. -/
def hexChar? (n : Nat) (cs : List Char) : Option (Char × List Char) :=
  match hexFrom? n 0 cs with
  | some (value, rest) =>
      if value.isValidChar then some (Char.ofNat value, rest) else none
  | none => none

/-- The character that an escape stands for, the backslash left out. -/
def escape? : List Char → Option (Char × List Char)
  | '0' :: rest => some ('\x00', rest)
  | 'a' :: rest => some ('\x07', rest)
  | 'b' :: rest => some ('\x08', rest)
  | 't' :: rest => some ('\t', rest)
  | '\t' :: rest => some ('\t', rest)
  | 'n' :: rest => some ('\n', rest)
  | 'v' :: rest => some ('\x0b', rest)
  | 'f' :: rest => some ('\x0c', rest)
  | 'r' :: rest => some ('\r', rest)
  | 'e' :: rest => some ('\x1b', rest)
  | ' ' :: rest => some (' ', rest)
  | '"' :: rest => some ('"', rest)
  | '/' :: rest => some ('/', rest)
  | '\\' :: rest => some ('\\', rest)
  | 'N' :: rest => some ('\u0085', rest)
  | '_' :: rest => some ('\u00a0', rest)
  | 'L' :: rest => some ('\u2028', rest)
  | 'P' :: rest => some ('\u2029', rest)
  | 'x' :: rest => hexChar? 2 rest
  | 'u' :: rest => hexChar? 4 rest
  | 'U' :: rest => hexChar? 8 rest
  | _ => none

/-- What one step inside quotes finds. -/
inductive Step where
  | stop (c : Cursor)
  | more (text : List Char) (c : Cursor)

/-- One character, escape or gap inside single quotes; a doubled quote is one
quote. -/
def single? (c : Cursor) : Option Step :=
  match c.rest with
  | '\'' :: '\'' :: _ => some (.more ['\''] (c.along 2))
  | '\'' :: _ => some (.stop (c.along 1))
  | x :: _ =>
      if Text.atGap c.rest then
        let (g, c') := Gap.read 0 c
        some (.more g.folded c')
      else some (.more [x] (c.along 1))
  | [] => none

/-- One character, escape or gap inside double quotes. A line end behind a
backslash does not count. -/
def double? (c : Cursor) : Option Step :=
  match c.rest with
  | '"' :: _ => some (.stop (c.along 1))
  | '\\' :: rest =>
      match rest with
      | x :: _ =>
          if Text.isBreak x then
            let (breaks, c') := Gap.readAfterBreak ((c.along 1).skip)
            some (.more breaks c')
          else
            match escape? rest with
            | some (y, rest') =>
                some (.more [y] (c.along (c.rest.length - rest'.length)))
            | none => none
      | [] => none
  | x :: _ =>
      if Text.atGap c.rest then
        let (g, c') := Gap.read 0 c
        some (.more g.folded c')
      else some (.more [x] (c.along 1))
  | [] => none

/-- Reads steps up to the closing quote. Each step passes at least one
character, so the length of the text bounds their number. -/
def readFrom? (step : Cursor → Option Step) :
    Nat → List Char → Cursor → Option (String × Cursor)
  | 0, _, _ => none
  | fuel + 1, acc, c =>
      if c.mark.column = 0 && Text.atDocumentMark c.rest then none
      else
        match step c with
        | none => none
        | some (.stop c') => some (String.ofList acc.reverse, c')
        | some (.more text c') =>
            readFrom? step fuel (text.reverse ++ acc) c'

/-- The scalar whose opening quote stands here. -/
def read? (c : Cursor) : Option (String × Cursor) :=
  match c.rest with
  | '\'' :: rest => readFrom? single? (rest.length + 1) [] (c.along 1)
  | '"' :: rest => readFrom? double? (rest.length + 1) [] (c.along 1)
  | _ => none

end QuotedScalar

/-! ## Block scalars -/

namespace BlockScalar

/-- What becomes of the line ends at the end of a block. -/
inductive Chomp where
  | strip
  | clip
  | keep
deriving DecidableEq

def chomp? : List Char → Option (Chomp × List Char)
  | '+' :: rest => some (.keep, rest)
  | '-' :: rest => some (.strip, rest)
  | _ => none

/-- An indentation digit, not zero. -/
def increment? : List Char → Option (Nat × List Char)
  | c :: rest =>
      if c.isDigit ∧ c ≠ '0' then some (c.toNat - '0'.toNat, rest) else none
  | [] => none

/-- The two indicators in either order; zero stands for no indentation digit. A
digit zero is left where it is and found wrong there. -/
def header (cs : List Char) : Chomp × Nat × List Char :=
  match chomp? cs with
  | some (ch, rest) =>
      match increment? rest with
      | some (n, rest') => (ch, n, rest')
      | none => (ch, 0, rest)
  | none =>
      match increment? cs with
      | some (n, rest) =>
          match chomp? rest with
          | some (ch, rest') => (ch, n, rest')
          | none => (.clip, n, rest)
      | none => (.clip, 0, cs)

/-- The indentation and the line ends before the next line of text. With
`indent` zero the spaces are all passed, and `widest` is the most of them on
one line. Nothing when a tab stands where indentation is due. -/
def breaksFrom? (indent : Nat) (breaks : List Char) (widest : Nat) (m : Mark) :
    List Char → Option (List Char × Nat × Cursor)
  | [] => some (breaks.reverse, max widest m.column, ⟨m, []⟩)
  | c :: rest =>
      let inside := indent = 0 || m.column < indent
      if inside && Text.isSpace c then
        breaksFrom? indent breaks widest (m.next c) rest
      else if inside && c = '\t' then none
      else if Text.isBreak c then
        breaksFrom? indent (c :: breaks) (max widest m.column) (m.next c) rest
      else some (breaks.reverse, max widest m.column, ⟨m, c :: rest⟩)

/-- What joins the line before to a line of text: in a folded block one line
feed between two lines that both start with text becomes a space, or falls away
before further line ends. -/
def joint (literal : Bool) (lead breaks : List Char)
    (blankBefore blankNow : Bool) : List Char :=
  if !literal && lead = ['\n'] && !blankBefore && !blankNow then
    if breaks.isEmpty then [' '] else breaks
  else lead ++ breaks

/-- Reads lines of text at column `indent`. `lead` is the end of the line
before, `breaks` are the empty lines after it. Each round passes a line, so the
length of the text bounds the rounds. -/
def linesFrom? (literal : Bool) (indent : Nat) :
    Nat → List Char → List Char → List Char → Bool → Cursor →
      Option (List Char × List Char × List Char × Cursor)
  | 0, acc, lead, breaks, _, c => some (acc, lead, breaks, c)
  | fuel + 1, acc, lead, breaks, blank, c =>
      match c.rest with
      | [] => some (acc, lead, breaks, c)
      | x :: _ =>
          if c.mark.column = indent then
            let blankNow := Text.isBlank x
            let acc := (joint literal lead breaks blank blankNow).reverse ++ acc
            let (line, c') := c.takeWhile (!Text.isBreak ·)
            let c'' := c'.skipBreak
            match breaksFrom? indent [] 0 c''.mark c''.rest with
            | none => none
            | some (breaks', _, c₃) =>
                linesFrom? literal indent fuel (line.reverse ++ acc)
                  (c'.rest.take 1) breaks' blankNow c₃
          else some (acc, lead, breaks, c)

/-- The block scalar whose indicator stands here, inside a collection at column
`parent`. -/
def read? (literal : Bool) (parent : Option Nat) (c : Cursor) :
    Option (String × Cursor) :=
  let c := c.along 1
  let (chomp, increment, rest) := header c.rest
  let c := c.along (c.rest.length - rest.length)
  match c.skipLineTail? with
  | none => none
  | some c =>
      let c := c.skipBreak
      let given := if increment = 0 then 0 else parent.getD 0 + increment
      match breaksFrom? given [] 0 c.mark c.rest with
      | none => none
      | some (breaks, widest, c) =>
          let least := (parent.map (· + 1)).getD 0
          let indent :=
            if given = 0 then max (max widest least) 1 else given
          match linesFrom? literal indent (c.rest.length + 1) [] [] breaks
              false c with
          | none => none
          | some (acc, lead, breaks, c) =>
              let tail :=
                match chomp with
                | .strip => []
                | .clip => lead
                | .keep => lead ++ breaks
              some (String.ofList (acc.reverse ++ tail), c)

end BlockScalar

end SimAnnotate.Yaml
