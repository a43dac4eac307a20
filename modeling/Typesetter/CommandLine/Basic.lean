import Typesetter.CommandLine.Options
import Typesetter.Files.Disk
import Typesetter.Session.Basic
import Typesetter.Settings.Json
import Typesetter.Text.Unprintable
import Typesetter.Tree.Json

namespace Typesetter.CommandLine

structure Outcome where
  exit : Nat
  output : String := ""
  errors : String := ""
  deriving DecidableEq, Repr

inductive Failure where
  | disk (error : DiskError)
  | input (reason : String)
  deriving DecidableEq, Repr

def Failure.text : Failure → String
  | disk e =>
    let source := match e.code? with
      | some code => "Os \x7b code: " ++ toString code ++ ", kind: "
      | none => "Error \x7b kind: "
    "Error: " ++ source ++ e.kind ++ ", message: " ++ Text.quotedText e.reason ++ " \x7d\n"
  | input reason =>
    "Error: Custom \x7b kind: InvalidInput, error: " ++ Text.quotedText reason ++ " \x7d\n"

def usage : String :=
  "Usage: tmeval [OPTIONS] [INPUT_FILE]\n\n"
    ++ "Options:\n"
    ++ "      --config <CONFIG>   JSON file with the evaluation settings\n"
    ++ "      --mode <MODE>       Mode of the source view\n"
    ++ "      --inactive <TARGET> Show the source view of a target instead of evaluating\n"
    ++ "      --json              Print the result as JSON\n"
    ++ "      --set <NAME=TREE>   Assign a variable before evaluation\n"
    ++ "  -c, --color             Colour the diagnostics\n"
    ++ "  -h, --help              Print help\n"
    ++ "  -V, --version           Print version\n"

def Refusal.outcome : Refusal → Outcome
  | .help => { exit := 0, output := usage }
  | .version => { exit := 0, output := "tmeval 0.2.0\n" }
  | .unexpected argument =>
    { exit := 2, errors := "error: unexpected argument '" ++ argument ++ "' found\n\n" ++ usage }
  | .missingValue option =>
    { exit := 2, errors := "error: a value is required for '--" ++ option ++ "'\n\n" ++ usage }
  | .repeated option =>
    { exit := 2
      errors := "error: the argument '--" ++ option ++ "' cannot be used multiple times\n\n" ++ usage }
  | .badMode name =>
    { exit := 2
      errors := "error: invalid value '" ++ name ++ "' for '--mode <MODE>': "
        ++ InactiveMode.unknownMessage name ++ "\n" }

abbrev Task := ExceptT Failure (Except Halt)

def readFile (disk : Disk) (path : String) : Task String :=
  match (disk path).map Finding.content with
  | some (.ok text) => pure text
  | some (.error e) => throw (.disk e)
  | none => ExceptT.lift (.error (.unknownFile path))

def standardInputName : String := "stdin.tm"

def document (disk : Disk) (input : String) : Option String → Task (String × String)
  | some path => return (← readFile disk path, path)
  | none => return (input, standardInputName)

def problemText : Settings.Json.Problem → String
  | .malformed => "malformed JSON"
  | .unsuitable => "unsuitable value"
  | .ended => "unexpected end of JSON"

def settings (disk : Disk) (o : Options) : Task Settings := do
  let settings ← match o.config with
    | none => pure {}
    | some path =>
      match Settings.ofJson (← readFile disk path) with
      | .ok settings => pure settings
      | .error e => throw (.input (path ++ ": " ++ problemText e))
  return match o.mode with
    | some inactiveMode => { settings with inactiveMode }
    | none => settings

def readTree (label text : String) : Task Tree :=
  match Tree.read text with
  | .ok tree => pure tree
  | .error e => throw (.input (label ++ ": " ++ e.message))

def perform {α : Type} (s : Session) (m : Execution α) : Task (α × Session) :=
  ExceptT.lift (s.run m)

def assign (s : Session) (assignment : String) : Task Session := do
  let name := String.ofList (assignment.toList.takeWhile (· ≠ '='))
  match assignment.toList.dropWhile (· ≠ '=') with
  | [] => throw (.input ("expected NAME=TREE, got " ++ assignment))
  | _ :: value =>
    let tree ← readTree ("bad value for " ++ name) (String.ofList value)
    return (← perform s (Session.assign name tree)).2

def diagnosticLine (color : Bool) (d : Diagnostic) : String :=
  if color then d.severity.colorCode ++ d.text ++ "\x1b[0m\n" else d.text ++ "\n"

def report (o : Options) (result : Tree) (state : State) : Outcome :=
  { exit := if state.hasErrors then 1 else 0
    output := (if o.json then result.json else result.text) ++ "\n"
    errors := String.join (state.diagnostics.toList.map (diagnosticLine o.color)) }

def evaluate (disk : Disk) (today : String → Option String) (input : String) (o : Options) :
    Task Outcome := do
  let (text, base) ← document disk input o.input
  let settings ← settings disk o
  let tree ← readTree base text
  let world : World := { base, files := .ofDisk "." disk, today }
  let s := ((Session.start 600 world).withSettings settings).writeStandard
  let s ← o.assignments.foldlM assign s
  let (result, s) ← match o.inactive with
    | some target => do
      let target ← readTree "bad target" target
      perform s (Session.viewInactive tree target none)
    | none => perform s (Session.exec tree)
  return report o result s.state

def run (disk : Disk) (today : String → Option String) (args : List String) (input : String) :
    Except Halt Outcome :=
  match Options.read args with
  | .error refusal => .ok refusal.outcome
  | .ok o => do
    match ← (evaluate disk today input o).run with
    | .ok outcome => return outcome
    | .error failure => return { exit := 1, errors := failure.text }

end Typesetter.CommandLine
