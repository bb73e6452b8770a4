import SimAnnotate.Yaml.Print.Scalar

/-!
# Values as text

`Value.print` writes a value as a block: mappings one entry a line, sequences
one item a line, each level two columns further in. The sequence of a mapping's
entry is not indented. A key that is long, has several lines or is a collection
is written behind a question mark.

`Value.isWritable` says which values can be written.
-/

namespace SimAnnotate.Yaml

namespace Print

/-- Where a value stands. -/
inductive Place where
  /-- Behind the colon of an ordinary entry. -/
  | entry
  /-- Behind the question mark or the colon of an entry with a question
  mark. -/
  | explicit
  | item
deriving DecidableEq

/-- The text of a value that needs no lines of its own. Only strings can. -/
def scalar? (indent : Nat) : Value → Option (List Char)
  | .null => some "null".toList
  | .bool b => some (if b then "true".toList else "false".toList)
  | .number n => some n.text.toList
  | .string s => some (Text.scalar (indent + 2) s)
  | .sequence [] => some ['[', ']']
  | .mapping [] => some ['{', '}']
  | .tagged t v =>
      (scalar? indent v).map fun text =>
        Text.tag t ++ ' ' :: text
  | _ => none

/-- The length that a key may have, in bytes. -/
def keyLimit : Nat := 128

/-- Whether a text has several lines for any reader. -/
def hasLines (s : String) : Bool :=
  s.toList.any fun c => Text.isBreak c || c = '\r' || c = '\u0085'

/-- The bytes of a key that has one line. -/
def keyLength? : Value → Option Nat
  | .null => some 4
  | .bool b => some (if b then 4 else 5)
  | .number n => some n.text.length
  | .string s => if hasLines s then none else some s.utf8ByteSize
  | .sequence [] => some 0
  | .mapping [] => some 0
  | .tagged t v => (keyLength? v).map (· + Text.tagSize t)
  | _ => none

/-- Whether a key stands in front of its colon without a question mark. -/
def isSimpleKey (k : Value) : Bool := (keyLength? k).any (· ≤ keyLimit)

/-- The beginning of a line behind `before`. -/
def newLine (indent : Nat) (before : List Char) : List Char :=
  (if Text.endsLine before then [] else ['\n']) ++ Text.spaces indent

mutual

/-- A value behind the mark in front of it, inside a collection at column
`indent`. `inline` says whether its first line can be the line of the mark. -/
def value (indent : Nat) (place : Place) (inline : Bool) :
    Value → List Char
  | .tagged t v =>
      ' ' :: Text.tag t ++ value indent place false v
  | .mapping (e :: es) =>
      let column := indent + 2
      entries column (if inline then [' '] else newLine column []) (e :: es)
  | .sequence (x :: xs) =>
      let column :=
        if place ≠ .item && !inline then indent else indent + 2
      items column (if inline then [' '] else newLine column []) (x :: xs)
  | v => ' ' :: (scalar? indent v).getD []

/-- Entries of a mapping at column `indent`, `lead` in front of the first. -/
def entries (indent : Nat) (lead : List Char) :
    List (Value × Value) → List Char
  | [] => []
  | (k, v) :: rest =>
      let text :=
        if isSimpleKey k then
          (scalar? indent k).getD [] ++ ':' :: value indent .entry false v
        else
          let key := '?' :: value indent .explicit true k
          key ++ newLine indent key ++ ':' :: value indent .explicit true v
      lead ++ text ++ entries indent (newLine indent text) rest

/-- Items of a sequence at column `indent`, `lead` in front of the first. -/
def items (indent : Nat) (lead : List Char) : List Value → List Char
  | [] => []
  | v :: rest =>
      let text := '-' :: value indent .item true v
      lead ++ text ++ items indent (newLine indent text) rest

end

/-- The lines of a value that is a document. -/
def lines : Value → List Char
  | .mapping (e :: es) => entries 0 [] (e :: es)
  | .sequence (x :: xs) => items 0 [] (x :: xs)
  | .tagged t (.mapping (e :: es)) =>
      Text.tag t ++ entries 0 ['\n'] (e :: es)
  | .tagged t (.sequence (x :: xs)) =>
      Text.tag t ++ items 0 ['\n'] (x :: xs)
  | v => (scalar? 0 v).getD []

end Print

/-! ## What can be written -/

/-- Why a value cannot be written. -/
inductive Unwritable where
  /-- The only key of a mapping hides the start of the mapping. -/
  | hiddenStart
  /-- A tag stands directly below a tag. -/
  | nestedTag
deriving DecidableEq

namespace Unwritable

def message : Unwritable → String
  | .hiddenStart => "expected SCALAR, SEQUENCE-START, MAPPING-START, or ALIAS"
  | .nestedTag => "serializing nested enums in YAML is not supported yet"

end Unwritable

namespace Value

/-- Whether a value would hide the start of a mapping of which it is the only
key: it is such a mapping itself, or has a tag. -/
def hidesStart : Value → Bool
  | .mapping [_] => true
  | .tagged _ _ => true
  | _ => false

mutual

/-- Why a value cannot be written. What is written first decides; that the start
of a mapping is hidden shows at its end, and a tag keeps it from being hidden. -/
def unwritable? : Value → Option Unwritable
  | .sequence xs => itemsUnwritable? xs
  | .mapping es =>
      (entriesUnwritable? es).or <|
        match es with
        | [(k, _)] => if k.hidesStart then some .hiddenStart else none
        | _ => none
  | .tagged _ (.mapping es) => entriesUnwritable? es
  | .tagged _ (.tagged _ _) => some .nestedTag
  | .tagged _ v => v.unwritable?
  | _ => none

def itemsUnwritable? : List Value → Option Unwritable
  | [] => none
  | v :: rest => v.unwritable?.or (itemsUnwritable? rest)

def entriesUnwritable? : List (Value × Value) → Option Unwritable
  | [] => none
  | (k, v) :: rest =>
      k.unwritable?.or (v.unwritable?.or (entriesUnwritable? rest))

end

/-- Whether a value can be written. -/
def isWritable (v : Value) : Bool := v.unwritable?.isNone

end Value

/-- The characters of a document with this value. -/
def Print.text (v : Value) : List Char :=
  let text := lines v
  if Text.endsLine text then text else text ++ ['\n']

/-- The text of a document with this value. -/
def Value.print (v : Value) : String := String.ofList (Print.text v)

end SimAnnotate.Yaml
