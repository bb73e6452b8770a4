import SimAnnotate.OrderedMap
import SimAnnotate.Yaml.Token

/-!
# Nodes

A node is a document's content before it gets a meaning: scalars, sequences
and mappings with their tags, and references to anchored nodes.

Anchors are numbers here. A name gets the number of names that were known
before it, a name that is used again gets a new number in the same way. So a
name can share its number with an earlier one, and the number then stands for
the node that began last.
-/

namespace SimAnnotate.Yaml

/-- The tag and the anchor in front of a node. -/
structure Props where
  tag : Option Octets
  anchor : Option Nat
deriving DecidableEq

def Props.none : Props := ⟨.none, .none⟩

def Props.isNone (p : Props) : Bool := p.tag.isNone && p.anchor.isNone

inductive Node where
  | reference (anchor : Nat)
  | scalar (props : Props) (text : String) (plain : Bool)
  | sequence (props : Props) (items : List Node)
  | mapping (props : Props) (entries : List (Node × Node))
deriving Inhabited

/-- The stems that tag handles stand for. -/
abbrev TagHandles := List (String × Octets)

namespace TagHandles

/-- What the two common handles stand for when no directive says otherwise. -/
def common : TagHandles :=
  [("!", Text.octets "!"), ("!!", Text.octets "tag:yaml.org,2002:")]

/-- The tag that a handle and a suffix write. -/
def resolve? (handles : TagHandles) (handle : String) (suffix : Octets) :
    Option Octets :=
  if handle = "" then some suffix
  else (handles.lookup handle).map (· ++ suffix)

end TagHandles

/-! ## Reading tokens -/

/-- The tokens that are left, and the numbers of the anchors so far. -/
structure TokenState where
  tokens : List Token
  anchors : OrderedMap String Nat

/-- A reader of tokens; it fails on a fault. -/
abbrev TokenReader := StateT TokenState Option

namespace TokenReader

def peek : TokenReader (Option Token) := return (← get).tokens.head?

def skip : TokenReader Unit :=
  modify fun s => { s with tokens := s.tokens.drop 1 }

/-- Passes the token `t` if it is the next one. -/
def accept (t : Token) : TokenReader Bool := do
  if (← peek) = some t then
    skip
    return true
  else return false

/-- Whether one of the tokens `ts` is next. -/
def sees (ts : List Token) : TokenReader Bool := return (← peek).any (· ∈ ts)

/-- Gives a name its number. -/
def addAnchor (name : String) : TokenReader Nat := do
  let s ← get
  let n := s.anchors.size
  set { s with anchors := s.anchors.insert name n }
  return n

def anchor? : TokenReader (Option Nat) := do
  match ← peek with
  | some (.anchor name) =>
      skip
      return some (← addAnchor name)
  | _ => return none

def tag? (handles : TagHandles) : TokenReader (Option Octets) := do
  match ← peek with
  | some (.tag handle suffix) =>
      skip
      let t ← handles.resolve? handle suffix
      return some t
  | _ => return none

/-- Reads a tag and an anchor, in either order. -/
def props (handles : TagHandles) : TokenReader Props := do
  match ← anchor? with
  | some n => return ⟨← tag? handles, some n⟩
  | none =>
      let tag ← tag? handles
      if tag.isSome then return ⟨tag, ← anchor?⟩ else return ⟨none, none⟩

end TokenReader

namespace Node

open TokenReader

/-- A node where the text has nothing. -/
def empty : Node := .scalar Props.none "" true

/-- Where a node stands decides which collections it can be. -/
inductive Place where
  | flow
  | block
  /-- A key or value of a block mapping, which may be a sequence without
  indentation of its own. -/
  | entry
deriving DecidableEq

/-- In front of each entry but the first of a flow collection stands a
comma. -/
def flowComma (first : Bool) : TokenReader Unit := do
  if !first then
    if !(← accept .flowEntry) then failure

mutual

/-- Reads one node. Each call passes on less fuel than it has, and no chain of
calls is longer than three times the number of tokens. -/
def read (handles : TagHandles) : Nat → Place → TokenReader Node
  | 0, _ => failure
  | fuel + 1, place => do
      if let some (.reference name) ← peek then
        skip
        let n ← (← get).anchors.get? name
        return .reference n
      let props ← props handles
      match ← peek with
      | some (.scalar text plain) =>
          skip
          return .scalar props text plain
      | some .flowSequenceStart =>
          skip
          return .sequence props (← flowItems handles fuel true)
      | some .flowMappingStart =>
          skip
          return .mapping props (← flowEntries handles fuel true)
      | t =>
          if place = .entry ∧ t = some .blockEntry then
            return .sequence props (← bareItems handles fuel)
          else if place ≠ .flow ∧ t = some .blockSequenceStart then
            skip
            return .sequence props (← blockItems handles fuel)
          else if place ≠ .flow ∧ t = some .blockMappingStart then
            skip
            return .mapping props (← blockEntries handles fuel)
          else if props.isNone then failure
          else return .scalar props "" true

/-- Reads a node, an empty one where one of the tokens `ends` stands. -/
def readUnless (handles : TagHandles) (ends : List Token) :
    Nat → Place → TokenReader Node
  | 0, _ => failure
  | fuel + 1, place => do
      if ← sees ends then return empty else read handles fuel place

/-- The items of a block sequence up to its end. -/
def blockItems (handles : TagHandles) : Nat → TokenReader (List Node)
  | 0 => failure
  | fuel + 1 => do
      if ← accept .blockEntry then
        let item ← readUnless handles [.blockEntry, .blockEnd] fuel .block
        return item :: (← blockItems handles fuel)
      else if ← accept .blockEnd then return []
      else failure

/-- The items of a sequence without indentation of its own. -/
def bareItems (handles : TagHandles) : Nat → TokenReader (List Node)
  | 0 => failure
  | fuel + 1 => do
      if ← accept .blockEntry then
        let item ← readUnless handles [.blockEntry, .key, .value, .blockEnd]
          fuel .block
        return item :: (← bareItems handles fuel)
      else return []

/-- The entries of a block mapping up to its end. -/
def blockEntries (handles : TagHandles) :
    Nat → TokenReader (List (Node × Node))
  | 0 => failure
  | fuel + 1 => do
      let ends := [Token.key, .value, .blockEnd]
      if ← accept .key then
        let k ← readUnless handles ends fuel .entry
        let v ← if ← accept .value then readUnless handles ends fuel .entry
          else pure empty
        return (k, v) :: (← blockEntries handles fuel)
      else if ← accept .blockEnd then return []
      else failure

/-- The value of an entry of a flow collection, empty where no colon
stands. -/
def flowValue (handles : TagHandles) (stop : Token) :
    Nat → TokenReader Node
  | 0 => failure
  | fuel + 1 => do
      if ← accept .value then readUnless handles [.flowEntry, stop] fuel .flow
      else return empty

/-- The items of a flow sequence up to its end. An item that begins with `key`
is a mapping of one entry; when its key is empty the token after `key` is
passed over. -/
def flowItems (handles : TagHandles) : Nat → Bool → TokenReader (List Node)
  | 0, _ => failure
  | fuel + 1, first => do
      if ← accept .flowSequenceEnd then return []
      flowComma first
      if ← accept .flowSequenceEnd then return []
      if ← accept .key then
        let k ←
          if ← sees [.value, .flowEntry, .flowSequenceEnd] then
            skip
            pure empty
          else read handles fuel .flow
        let v ← flowValue handles .flowSequenceEnd fuel
        return .mapping Props.none [(k, v)]
          :: (← flowItems handles fuel false)
      else
        let item ← read handles fuel .flow
        return item :: (← flowItems handles fuel false)

/-- The entries of a flow mapping up to its end. A node without `key` is a key
without a value. -/
def flowEntries (handles : TagHandles) :
    Nat → Bool → TokenReader (List (Node × Node))
  | 0, _ => failure
  | fuel + 1, first => do
      if ← accept .flowMappingEnd then return []
      flowComma first
      if ← accept .flowMappingEnd then return []
      if ← accept .key then
        let k ← readUnless handles [.value, .flowEntry, .flowMappingEnd] fuel
          .flow
        let v ← flowValue handles .flowMappingEnd fuel
        return (k, v) :: (← flowEntries handles fuel false)
      else
        let k ← read handles fuel .flow
        return (k, empty) :: (← flowEntries handles fuel false)

end

mutual

/-- The anchored nodes, in the order in which they begin. -/
def anchored : Node → List (Nat × Node)
  | .reference _ => []
  | .scalar p text plain =>
      p.anchor.toList.map fun n => (n, .scalar p text plain)
  | .sequence p items =>
      (p.anchor.toList.map fun n => (n, .sequence p items))
        ++ anchoredItems items
  | .mapping p entries =>
      (p.anchor.toList.map fun n => (n, .mapping p entries))
        ++ anchoredEntries entries

def anchoredItems : List Node → List (Nat × Node)
  | [] => []
  | x :: rest => x.anchored ++ anchoredItems rest

def anchoredEntries : List (Node × Node) → List (Nat × Node)
  | [] => []
  | (k, v) :: rest => k.anchored ++ v.anchored ++ anchoredEntries rest

end

mutual

/-- How many parts a node has: a start and an end count for a collection. -/
def count : Node → Nat
  | .reference _ => 1
  | .scalar _ _ _ => 1
  | .sequence _ items => countItems items + 2
  | .mapping _ entries => countEntries entries + 2

def countItems : List Node → Nat
  | [] => 0
  | x :: rest => x.count + countItems rest

def countEntries : List (Node × Node) → Nat
  | [] => 0
  | (k, v) :: rest => k.count + v.count + countEntries rest

end

end Node

end SimAnnotate.Yaml
