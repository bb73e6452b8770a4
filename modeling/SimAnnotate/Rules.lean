import SimAnnotate.Document.Basic
import SimAnnotate.Table

/-!
# Annotation rules

A rule gives an annotation a value wherever another annotation has an expected
one. The rules of a set are applied one after the other, each to what the ones
before it left. They come from a table or are built in.
-/

namespace SimAnnotate

/-- Sets `target` to `value` where `source` is the string `expected`. -/
structure Rule where
  source : String
  expected : String
  target : String
  value : String
deriving DecidableEq

namespace Rule

def applies (r : Rule) (a : Annotations) : Bool :=
  a.string? r.source == some r.expected

/-- The annotations after the rule. -/
def apply (r : Rule) (a : Annotations) : Annotations :=
  if r.applies a then a.insert r.target (.string r.value) else a

end Rule

structure RuleSet where
  rules : List Rule
deriving DecidableEq

namespace RuleSet

def isEmpty (s : RuleSet) : Bool := s.rules.isEmpty

/-! ## Applying -/

/-- The annotations after all rules. -/
def apply (s : RuleSet) (a : Annotations) : Annotations :=
  s.rules.foldl (fun a r => r.apply a) a

/-- How many rules apply, each to what the ones before it left. -/
def countFrom : List Rule → Annotations → Nat
  | [], _ => 0
  | r :: rest, a =>
      (if r.applies a then 1 else 0) + countFrom rest (r.apply a)

def count (s : RuleSet) (a : Annotations) : Nat := countFrom s.rules a

def applySignal (s : RuleSet) (signal : Signal) : Signal :=
  { signal with annotations := s.apply signal.annotations }

/-! ## Rule tables -/

def header : List String := ["Annotation", "Value", "FmiAnnotation", "FmiValue"]

/-- The rule of a row; `n` rules stand before it. -/
def rule (n : Nat) (row : List Csv.Bytes) : Except TableFault Rule := do
  match ← Table.fields row with
  | [source, expected, target, value] =>
      return ⟨source, expected, target, value⟩
  | fs => throw (.ruleFields (n + 1) fs.length)

/-- The rules of a table. -/
def ofRecords : List (List Csv.Bytes) → Except TableFault RuleSet
  | [] => .error .noRules
  | first :: rows => do
      let found ← Table.fields first
      if found ≠ header then throw (.ruleHeader found header)
      let rules ← rows.zipIdx.mapM fun (row, n) => rule n row
      return ⟨rules⟩

def ofBytes (bytes : ByteArray) : Except TableFault RuleSet :=
  ofRecords (Csv.records bytes.toList)

def load : FileTree → Path → Except TableError RuleSet := Table.load ofBytes

/-! ## Built-in rules -/

/-- The name of the annotation that says whether a signal is a variable. -/
def causality : String := "fmi_variable_causality"

/-- The direction of a signal is its causality. -/
def signalDirection : RuleSet :=
  ⟨[⟨"direction", "input", causality, "input"⟩,
    ⟨"direction", "output", causality, "output"⟩]⟩

def builtIn (name : String) : Except TableError RuleSet :=
  if name = "signal-direction" then .ok signalDirection
  else .error ⟨none, .unknownRules name⟩

/-- The rules of a table if one is given, else those of a name that is not
empty. -/
def select (t : FileTree) : Option Path → Option String →
    Except TableError (Option RuleSet)
  | some file, _ => (load t file).map some
  | none, none => .ok none
  | none, some name =>
      if name = "" then .ok none else (builtIn name).map some

end RuleSet

end SimAnnotate
