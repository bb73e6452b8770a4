import SimAnnotate.Yaml.Meaning
import SimAnnotate.Yaml.Token.Lexer

/-!
# Texts with several documents

`Stream.read` gives the values of a text's documents. Where a document is
faulty the reading ends: the documents before it are there, and `intact` is
false.
-/

namespace SimAnnotate.Yaml

structure Stream where
  documents : List Value
  intact : Bool
deriving DecidableEq

namespace Stream

/-- Reads the directives in front of a document: at most one version, which has
to be 1.1 or 1.2, and no tag handle twice. -/
def directives? (version : Bool) (handles : TagHandles) :
    List Token → Option (TagHandles × List Token)
  | .version major minor :: rest =>
      if version || major ≠ 1 || (minor ≠ 1 && minor ≠ 2) then none
      else directives? true handles rest
  | .tagDirective handle stem :: rest =>
      if (handles.lookup handle).isSome then none
      else directives? version (handles ++ [(handle, stem)]) rest
  | ts => some (handles ++ TagHandles.common, ts)

/-- Whether a document has no content before these tokens. -/
def isBare : List Token → Bool
  | [] => true
  | .version _ _ :: _ => true
  | .tagDirective _ _ :: _ => true
  | .documentStart :: _ => true
  | .documentEnd :: _ => true
  | _ => false

/-- The content of a document, and the tokens after its end. -/
def content? (handles : TagHandles) (ts : List Token) :
    Option (Node × List Token) :=
  let fuel := 3 * ts.length + 3
  match (Node.read handles fuel .block).run ⟨ts, ∅⟩ with
  | none => none
  | some (node, s) =>
      match s.tokens with
      | .fault :: _ => none
      | .documentEnd :: rest => some (node, rest)
      | rest => some (node, rest)

/-- A document behind its start, which may have no content. -/
def explicit? (handles : TagHandles) (ts : List Token) :
    Option (Node × List Token) :=
  if isBare ts then
    match ts with
    | .documentEnd :: rest => some (.empty, rest)
    | _ => some (.empty, ts)
  else content? handles ts

/-- The next document. The first one needs no start of its own. -/
def document? (first : Bool) (ts : List Token) :
    Option (Node × List Token) :=
  if first && !isBare ts then content? TagHandles.common ts
  else
    match directives? false [] ts with
    | some (handles, .documentStart :: rest) => explicit? handles rest
    | _ => none

/-- Passes the ends of documents that stand between documents. -/
def skipEnds : List Token → List Token
  | .documentEnd :: rest => skipEnds rest
  | ts => ts

/-- Each document has at least one token, so their number bounds the
rounds. -/
def readFrom : Nat → Bool → List Token → Stream
  | 0, _, _ => ⟨[], false⟩
  | fuel + 1, first, ts =>
      match if first then ts else skipEnds ts with
      | [] => ⟨[], true⟩
      | ts =>
          match document? first ts with
          | none => ⟨[], false⟩
          | some (node, rest) =>
              match node.value? with
              | none => ⟨[], false⟩
              | some v =>
                  let more := readFrom fuel false rest
                  { more with documents := v :: more.documents }

/-- Reads the characters of a text. -/
def ofChars (cs : List Char) : Stream :=
  let ts := Token.scan cs
  readFrom (ts.length + 1) true ts

def read (text : String) : Stream := ofChars text.toList

end Stream

end SimAnnotate.Yaml
