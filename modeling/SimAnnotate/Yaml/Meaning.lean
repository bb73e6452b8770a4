import SimAnnotate.Yaml.Node
import SimAnnotate.Yaml.Plain

/-!
# The value of a node

`Node.value?` gives a node its value. It fails on a scalar that is not what its
tag says, on a whole number out of range, on a repeated key, below the depth
limit, and when references to anchors are followed too often.
-/

namespace SimAnnotate.Yaml

namespace Plain

/-- The value of an unquoted text. -/
def value? (s : String) : Option Value :=
  match read s with
  | .null => some .null
  | .bool b => some (.bool b)
  | .int n => some (.number (.int n))
  | .wide => none
  | .float x => some (.number (.float x))
  | .text => some (.string s)

end Plain

/-- What a tag means for the node behind it. -/
inductive TagMeaning where
  /-- A tag of the document's own, which stays in the value. Its name has one
  mark less in front than the tag, and two less where that leaves something. -/
  | own (name : String)
  | bool
  | int
  | float
  | null
  | other

namespace TagMeaning

/-- The mark in front of a tag of one's own. -/
def mark : UInt8 := 0x21

/-- The meaning of a tag. A tag of one's own that is no text has none. -/
def ofTag? (tag : Octets) : Option TagMeaning :=
  match tag with
  | [] => some .other
  | first :: rest =>
      if first = mark then
        let name := if rest.isEmpty then [mark] else rest
        (String.fromUTF8? ⟨name.toArray⟩).map (.own <| Value.dropMark ·)
      else if tag = Text.octets "tag:yaml.org,2002:bool" then some .bool
      else if tag = Text.octets "tag:yaml.org,2002:int" then some .int
      else if tag = Text.octets "tag:yaml.org,2002:float" then some .float
      else if tag = Text.octets "tag:yaml.org,2002:null" then some .null
      else some .other

end TagMeaning

namespace Node

/-- The value of a scalar. -/
def scalarValue? (tag : Option Octets) (text : String) (plain : Bool) :
    Option Value :=
  let untagged := if plain then Plain.value? text else some (.string text)
  match tag.bind TagMeaning.ofTag? with
  | none => untagged
  | some (.own name) => untagged.map (.tagged name)
  | some .bool => (Plain.bool? text).map .bool
  | some .int =>
      match Plain.int? text.toList with
      | some (.int n) => some (.number (.int n))
      | _ => none
  | some .float => (Plain.float? text).map (.number <| .float ·)
  | some .null => if Plain.isNull text then some .null else none
  | some .other => some (.string text)

/-- Puts a collection's own tag around its value. -/
def withTag (tag : Option Octets) (v : Value) : Value :=
  match tag.bind TagMeaning.ofTag? with
  | some (.own name) => .tagged name v
  | _ => v

/-- What the references of a document lead to, and how many may be
followed. -/
structure References where
  anchored : List (Nat × Node)
  limit : Nat

namespace References

def ofNode (n : Node) : References := ⟨n.anchored.reverse, 100 * n.count⟩

end References

/-- Follows a reference. The state counts the references followed. -/
def follow (refs : References) (n : Nat) : StateT Nat Option Node := do
  let jumps := (← get) + 1
  set jumps
  if refs.limit < jumps then failure
  refs.anchored.lookup n

/-- Adds an entry whose key has to be new. -/
def addEntry? (entries : List (Value × Value)) (k v : Value) :
    Option (List (Value × Value)) :=
  if entries.any (·.1.same k) then none else some (entries ++ [(k, v)])

/-- The value of a node below which `depth` more levels of collections are
allowed. -/
def valueWithin (refs : References) : Nat → Node → StateT Nat Option Value
  | depth, node => do
      let node ←
        match node with
        | .reference n => follow refs n
        | n => pure n
      match depth, node with
      | _, .reference _ => failure
      | _, .scalar p text plain => scalarValue? p.tag text plain
      | 0, _ => failure
      | depth + 1, .sequence p items =>
          let vs ← items.mapM (valueWithin refs depth)
          return withTag p.tag (.sequence vs)
      | depth + 1, .mapping p entries =>
          let es ← entries.foldlM
            (fun es e => do
              let k ← valueWithin refs depth e.1
              let v ← valueWithin refs depth e.2
              addEntry? es k v)
            []
          return withTag p.tag (.mapping es)

/-- Collections nest at most this deep. -/
def depthLimit : Nat := 128

def value? (node : Node) : Option Value :=
  ((valueWithin (.ofNode node) depthLimit node).run 0).map Prod.fst

end Node

end SimAnnotate.Yaml
