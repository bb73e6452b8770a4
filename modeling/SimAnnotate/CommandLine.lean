import SimAnnotate.Run

/-!
# The command line

`CommandLine.parse` reads arguments from left to right; the first one that asks
for help or for the version, or that is wrong, decides. What only the whole
line can show, such as an option that is missing, is looked at last.

`CommandLine.run` carries a line out on a file tree.
-/

namespace SimAnnotate

inductive Command where
  | annotate (o : Options)
  | patch (input table : Path) (removeUnknown : Bool)

namespace Command

/-- What a command is said to have failed at. -/
def context : Command → String
  | annotate o => "Annotation failed: " ++ o.sim.text
  | patch input _ _ => "Patch failed: " ++ input.text

def run : Command → Run Unit
  | annotate o => do
      let _ ← Run.annotate o
  | patch input table removeUnknown => Run.patch input table removeUnknown

end Command

/-- What a line asks for. -/
inductive Request where
  | run (c : Command)
  | help
  | version
  | misuse

namespace CommandLine

/-! ## Options -/

/-- The flags that every command has, as often as they were given. -/
structure Verbosity where
  verbose : Nat
  quiet : Nat

/-- One can be quiet or verbose, not both. -/
def Verbosity.isValid (v : Verbosity) : Bool := v.verbose = 0 || v.quiet = 0

/-- What stands in an argument: an option with the value behind its equals
sign, a group of one-letter options, or something else. -/
inductive Argument where
  | long (name : String) (value : Option String)
  | short (letters : List Char)
  | escape
  | plain (text : String)

namespace Argument

def ofString (s : String) : Argument :=
  match s.toList with
  | ['-', '-'] => .escape
  | '-' :: '-' :: cs =>
      let name := cs.takeWhile (· ≠ '=')
      match cs.drop name.length with
      | _ :: value => .long (String.ofList name) (some (String.ofList value))
      | [] => .long (String.ofList name) none
  | '-' :: c :: cs => .short (c :: cs)
  | _ => .plain s

end Argument

/-- Whether an argument can be the value of the option before it. -/
def isValue (s : String) : Bool :=
  match Argument.ofString s with
  | .plain _ => true
  | _ => false

/-- What reading goes on with, or what the line asks for. -/
inductive Step (σ : Type) where
  | more (s : σ)
  | stop (r : Request)

/-- Reads a group of one-letter options. -/
def letters (version : Bool) : List Char → Verbosity → Step Verbosity
  | [], v => .more v
  | c :: rest, v =>
      if c = 'v' then letters version rest { v with verbose := v.verbose + 1 }
      else if c = 'q' then letters version rest { v with quiet := v.quiet + 1 }
      else if c = 'h' then .stop .help
      else if c = 'V' ∧ version then .stop .version
      else .stop .misuse

/-- Reads an option that every command has. -/
def common (version : Bool) (name : String) (value : Option String)
    (v : Verbosity) : Step Verbosity :=
  match name, value with
  | "verbose", none => .more { v with verbose := v.verbose + 1 }
  | "quiet", none => .more { v with quiet := v.quiet + 1 }
  | "help", none => .stop .help
  | "version", none => .stop (if version then .version else .misuse)
  | _, _ => .stop .misuse

/-! ## Commands -/

/-- How the options of a command are read into `σ`. A flag has no value; a
value that an option refuses, such as one given twice, is a misuse. -/
structure CommandSpec (σ : Type) where
  start : σ
  flag? : String → Option (σ → Option σ)
  option? : String → Option (String → σ → Option σ)
  finish? : σ → Option Command

namespace CommandSpec

variable {σ : Type}

/-- Nothing may stand behind an argument of two dashes. -/
def afterEscape (spec : CommandSpec σ) (x : σ) (v : Verbosity)
    (rest : List String) : Request :=
  if rest.isEmpty && v.isValid then
    match spec.finish? x with
    | some c => .run c
    | none => .misuse
  else .misuse

/-- Reads the arguments behind a command's name. -/
def read (spec : CommandSpec σ) (x : σ) (v : Verbosity) :
    List String → Request
  | [] => spec.afterEscape x v []
  | arg :: rest =>
      match Argument.ofString arg with
      | .escape => spec.afterEscape x v rest
      | .plain _ => .misuse
      | .short cs =>
          match letters false cs v with
          | .more v => spec.read x v rest
          | .stop r => r
      | .long name value =>
          match spec.flag? name, spec.option? name, value, rest with
          | some set, _, none, rest =>
              match set x with
              | some x => spec.read x v rest
              | none => .misuse
          | some _, _, some _, _ => .misuse
          | none, some set, some text, rest =>
              match set text x with
              | some x => spec.read x v rest
              | none => .misuse
          | none, some set, none, text :: rest =>
              if isValue text then
                match set text x with
                | some x => spec.read x v rest
                | none => .misuse
              else .misuse
          | none, some _, none, [] => .misuse
          | none, none, value, rest =>
              match common false name value v with
              | .more v => spec.read x v rest
              | .stop r => r

end CommandSpec

/-- A path that was not given before and is not empty. -/
def path? (before : Option Path) (text : String) : Option Path :=
  if before.isSome || text.isEmpty then none else some ⟨text⟩

/-- The texts between commas. -/
def splitCommas : List Char → List (List Char)
  | [] => [[]]
  | c :: rest =>
      if c = ',' then [] :: splitCommas rest
      else
        match splitCommas rest with
        | s :: ss => (c :: s) :: ss
        | [] => [[c]]

structure AnnotateArguments where
  sim : Option Path
  signalGroups : List String
  rules : Option Path
  ruleSet : Option String
  index : Bool

def annotateSpec : CommandSpec AnnotateArguments where
  start := ⟨none, [], none, none, false⟩
  flag?
    | "index" => some fun a =>
        if a.index then none else some { a with index := true }
    | _ => none
  option?
    | "sim" => some fun text a =>
        (path? a.sim text).map fun p => { a with sim := some p }
    | "signalgroups" => some fun text a =>
        let names := (splitCommas text.toList).map String.ofList
        some { a with signalGroups := a.signalGroups ++ names }
    | "rule" => some fun text a =>
        (path? a.rules text).map fun p => { a with rules := some p }
    | "ruleset" => some fun text a =>
        if a.ruleSet.isSome then none else some { a with ruleSet := some text }
    | _ => none
  finish? a :=
    some (.annotate
      ⟨a.sim.getD Options.default.sim, a.signalGroups, a.rules, a.ruleSet,
        a.index⟩)

structure PatchArguments where
  input : Option Path
  table : Option Path
  removeUnknown : Bool

def patchSpec : CommandSpec PatchArguments where
  start := ⟨none, none, false⟩
  flag?
    | "remove-unknown" => some fun a =>
        if a.removeUnknown then none else some { a with removeUnknown := true }
    | _ => none
  option?
    | "input" => some fun text a =>
        (path? a.input text).map fun p => { a with input := some p }
    | "patch" => some fun text a =>
        (path? a.table text).map fun p => { a with table := some p }
    | _ => none
  finish? a :=
    match a.input, a.table with
    | some input, some table => some (.patch input table a.removeUnknown)
    | _, _ => none

/-! ## The whole line -/

def commandNames : List String := ["annotate", "patch", "help"]

/-- Help on the commands that are named, one inside the other; none has
commands inside. -/
def help : List String → Request
  | [] => .help
  | [name] => if name ∈ commandNames then .help else .misuse
  | _ => .misuse

/-- The request of a command's arguments, `v` read before its name. -/
def guard (v : Verbosity) : Request → Request
  | .run c => if v.isValid then .run c else .misuse
  | r => r

def parseFrom (v : Verbosity) : List String → Request
  | [] => .misuse
  | arg :: rest =>
      match Argument.ofString arg with
      | .plain "annotate" =>
          guard v (annotateSpec.read annotateSpec.start ⟨0, 0⟩ rest)
      | .plain "patch" =>
          guard v (patchSpec.read patchSpec.start ⟨0, 0⟩ rest)
      | .plain "help" => help rest
      | .plain _ => .misuse
      | .escape => .misuse
      | .short cs =>
          match letters true cs v with
          | .more v => parseFrom v rest
          | .stop r => r
      | .long name value =>
          match common true name value v with
          | .more v => parseFrom v rest
          | .stop r => r

/-- What a line asks for. -/
def parse (args : List String) : Request := parseFrom ⟨0, 0⟩ args

/-! ## Carrying out -/

/-- What a program leaves: its exit code, its output and its report of an
error. -/
structure Outcome where
  exitCode : Nat
  output : String
  report : Option String

def versionText : String := "fmi-gen 0.1.0\n"

/-- The lines behind the first indented by four columns. -/
def indentLines (s : String) : String :=
  String.ofList (s.toList.flatMap fun c =>
    if c = '\n' then '\n' :: List.replicate 4 ' ' else [c])

/-- The report of an error and what it made fail. -/
def reportText (context : String) (e : Error) : String :=
  "Error: " ++ context ++ "\n\nCaused by:\n    " ++ indentLines e.message

/-- Carries a line out. -/
def run (args : List String) (t : FileTree) : Outcome × FileTree :=
  match parse args with
  | .help => (⟨0, "", none⟩, t)
  | .version => (⟨0, versionText, none⟩, t)
  | .misuse => (⟨2, "", none⟩, t)
  | .run c =>
      match Run.on t c.run with
      | (.ok _, s) => (⟨0, "", none⟩, s.tree)
      | (.error e, s) =>
          (⟨1, "", some (reportText c.context e)⟩, s.tree)

end CommandLine

end SimAnnotate
