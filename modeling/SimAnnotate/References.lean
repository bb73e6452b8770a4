import SimAnnotate.Catalog.Files
import SimAnnotate.OffsetTable
import SimAnnotate.Rules

/-!
# Value references

A signal that is an input or an output after the rules gets a value reference:
the next number of a counter, or its place in an offset table. Binary signal
groups get none.
-/

namespace SimAnnotate

open Yaml (Value)

/-- Where value references come from. -/
inductive ReferencePolicy where
  /-- One counter for all groups; `last` is the reference given last. -/
  | counter (last : Nat)
  /-- The place of the signal in the table, in its group's channel. -/
  | table (t : OffsetTable)

namespace References

def referenceKey : String := "fmi_variable_vref"
def typeKey : String := "fmi_variable_type"
def nameKey : String := "fmi_variable_name"

/-- The type of every variable. -/
def variableType : String := "Real"

/-- The annotation that says how the signals of a group are encoded. -/
def encodingKey : String := "vector_type"

def isBinary (d : Document) : Bool :=
  d.metadata.annotations.string? encodingKey == some "binary"

/-- Whether a signal with these annotations is an input or an output. -/
def qualifies (a : Annotations) : Bool :=
  let c := a.string? RuleSet.causality
  c == some "input" || c == some "output"

/-- The signal with a value reference. -/
def refer (s : Signal) (n : Nat) : Signal :=
  { s with
    annotations :=
      ((s.annotations.insert referenceKey (.ofNat n)).insert typeKey
        (.string variableType)).insert nameKey (.string s.name) }

/-! ## Signals of a group -/

/-- Signals that count on from `last`. -/
def countSignals (rules : RuleSet) : Nat → List Signal → List Signal × Nat
  | last, [] => ([], last)
  | last, s :: rest =>
      let s := rules.applySignal s
      if qualifies s.annotations then
        let (more, last') := countSignals rules (last + 1) rest
        (refer s (last + 1) :: more, last')
      else
        let (more, last') := countSignals rules last rest
        (s :: more, last')

/-- The place of a signal in a table, for a group that is wired. -/
def place? (t : OffsetTable) (channel : Option String) (s : Signal) :
    Option Nat :=
  channel.bind fun c => t.lookup c s.name

/-- A signal that is referred to by its place. -/
def placeSignal (rules : RuleSet) (t : OffsetTable)
    (channel : Option String) (s : Signal) : Signal :=
  let s := rules.applySignal s
  if qualifies s.annotations then
    match place? t channel s with
    | some n => refer s n
    | none => s
  else s

/-- Whether a signal gets a reference by its place. -/
def isPlaced (rules : RuleSet) (t : OffsetTable) (channel : Option String)
    (s : Signal) : Bool :=
  qualifies (rules.applySignal s).annotations && (place? t channel s).isSome

/-! ## Groups -/

/-- The outcome for one group: its signals, how many of them have a new
reference, and the policy for the next group. -/
structure Referred where
  signals : List Signal
  count : Nat
  policy : ReferencePolicy

/-- The channel that places are looked up in. -/
def channel? (c : Catalog) (policy : ReferencePolicy) (d : Document) :
    Except Error (Option String) :=
  match policy with
  | .counter _ => .ok none
  | .table _ => Wiring.channel? c d

def referSignals (rules : RuleSet) (channel : Option String)
    (signals : List Signal) : ReferencePolicy → Referred
  | .counter last =>
      let (signals, last') := countSignals rules last signals
      ⟨signals, last' - last, .counter last'⟩
  | .table t =>
      ⟨signals.map (placeSignal rules t channel),
        signals.countP (isPlaced rules t channel), .table t⟩

/-- What annotating one group comes to. -/
structure Annotated where
  catalog : Catalog
  policy : ReferencePolicy
  count : Nat

/-- Flags the file of a document, if it has one. -/
def flagFile (c : Catalog) (d : Document) : Catalog :=
  match d.file with
  | some p => c.flag p
  | none => c

/-- Applies rules to a signal group and gives its inputs and outputs value
references. -/
def annotate (c : Catalog) (h : Handle) (rules : RuleSet)
    (policy : ReferencePolicy) : Except Error Annotated :=
  match c.get? h with
  | none => .error (.notFound (.document h))
  | some d =>
      if isBinary d then .error (.unsupported (.binary d.name))
      else do
        let channel ← channel? c policy d
        match d.signalGroup? with
        | none => throw (.unsupported (.notSignalGroup d.name))
        | some g =>
            let r := referSignals rules channel g.signals policy
            let c := c.modify h (·.mapSignals fun _ => r.signals)
            return ⟨flagFile c d, r.policy, r.count⟩

/-! ## Warnings -/

/-- One warning for each input or output without a place. -/
def missing (rules : RuleSet) (t : OffsetTable) (channel : Option String)
    (d : Document) : List Warning :=
  let signals := (d.signalGroup?.map (·.signals)).getD []
  (signals.filter fun s =>
      qualifies (rules.applySignal s).annotations
        && (place? t channel s).isNone).map
    fun s => .notInTable s.name d.name

/-- What is to be said when a group is annotated. -/
def warnings (c : Catalog) (h : Handle) (rules : RuleSet) :
    ReferencePolicy → List Warning
  | .counter _ => []
  | .table t =>
      match c.get? h with
      | none => []
      | some d =>
          if isBinary d then []
          else
            match Wiring.channel? c d with
            | .error _ => []
            | .ok none =>
                Wiring.warnings c d
                  ++ .noReferences d.name (.channel d.name)
                  :: missing rules t none d
            | .ok channel =>
                Wiring.warnings c d ++ missing rules t channel d

end References

end SimAnnotate
