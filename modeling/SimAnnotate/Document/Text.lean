import SimAnnotate.Document.Decode
import SimAnnotate.Document.Encode
import SimAnnotate.Yaml.Print
import SimAnnotate.Yaml.Stream

/-!
# Documents as text

`Document.parse` reads all documents of a text; documents that are null do not
count. The first document that cannot be read decides the error.
`Document.print` writes one document and `Document.printAll` several, with a
line of three dashes between them.
-/

namespace SimAnnotate

open Yaml (Value)

inductive ParseError where
  /-- The text has no YAML value at some document. -/
  | malformed
  | decode (e : DecodeError)
  /-- `position` counts the documents before. -/
  | missingKind (position : Nat)
deriving DecidableEq

namespace ParseError

def message : ParseError → String
  | .malformed => "Error parsing YAML: <syntax>"
  | .decode e => "Error parsing YAML: " ++ e.message
  | .missingKind n => "Document " ++ toString n ++ " has no kind"

end ParseError

/-- Why a document has no text. -/
inductive PrintError where
  /-- Documents of a kind that is not known cannot be written. -/
  | unknownKind (kind : String)
  /-- A value in the document cannot be written. -/
  | unwritable (cause : Yaml.Unwritable)
deriving DecidableEq

namespace PrintError

def message : PrintError → String
  | .unknownKind kind =>
      "Document kind " ++ kind ++ " has no registered serialization"
  | .unwritable cause => "Error encoding YAML: " ++ cause.message

end PrintError

namespace Document

/-! ## Reading -/

/-- The document that a value is, with `position` documents before it. -/
def ofValue (position : Nat) (v : Value) : Except ParseError Document := do
  let frame ← (Decode.frameRecord.read v).mapError .decode
  match frame.kind with
  | none => throw (.missingKind position)
  | some kind =>
      let spec ← (Decode.spec kind frame.spec).mapError .decode
      return ⟨frame.metadata.getD default, spec, none⟩

/-- Values that are not null, each as a document. -/
def ofValues (vs : List Value) : Except ParseError (List Document) :=
  ((vs.filter (!·.isNull)).zipIdx).mapM fun (v, n) => ofValue n v

/-- The documents of a text whose values are read already. -/
def ofStream (s : Yaml.Stream) : Except ParseError (List Document) := do
  let docs ← ofValues s.documents
  if s.intact then return docs else throw .malformed

/-- The documents of a text. -/
def parse (text : String) : Except ParseError (List Document) :=
  ofStream (Yaml.Stream.read text)

/-! ## Writing -/

/-- The text of one document. -/
def print (d : Document) : Except PrintError String :=
  match d.encode? with
  | some v =>
      match v.unwritable? with
      | none => .ok v.print
      | some cause => .error (.unwritable cause)
  | none => .error (.unknownKind d.kind.text)

/-- The line between two documents. -/
def separator : String := "---\n"

/-- The text of several documents. -/
def printAll (ds : List Document) : Except PrintError String := do
  let texts ← ds.mapM print
  return separator.intercalate texts

end Document

end SimAnnotate
