import ConstraintHierarchy.CommandLine.Arguments
import ConstraintHierarchy.CommandLine.Log
import ConstraintHierarchy.Scenario
import ConstraintHierarchy.Script.Diagnostics
import ConstraintHierarchy.Settings.Document

/-!
# The program

From arguments to exit code and output. The arguments are read first, then the settings; after that
the program runs either the scenarios asked for or a script. How files are read is left to the
caller.
-/

namespace ConstraintHierarchy.CommandLine

/-- Why a file cannot be read as text. -/
inductive ReadError where
  | notFound
  | isDirectory
  | denied
  | invalidText
  /-- a failure that only the system can describe -/
  | other (description : String)

def ReadError.message : ReadError → String
  | notFound => "No such file or directory (os error 2)"
  | isDirectory => "Is a directory (os error 21)"
  | denied => "Permission denied (os error 13)"
  | invalidText => "stream did not contain valid UTF-8"
  | other description => description

/-- What the program leaves behind. -/
structure Outcome where
  code : Nat := 0
  stdout : String := ""
  stderr : String := ""

namespace Outcome

/-- An ordinary failure. -/
def failure (message : String) : Outcome := { code := 1, stderr := message }

/-- The program broke down. -/
def breakdown : Outcome := { code := 101 }

/-- One outcome after another; a failure ends the program. -/
def andThen (first : Outcome) (next : Unit → Outcome) : Outcome :=
  if first.code = 0 then
    let second := next ()
    { code := second.code
      stdout := first.stdout ++ second.stdout
      stderr := first.stderr ++ second.stderr }
  else first

end Outcome

/-- The journal as far as it is wanted. -/
def logIf (verbose : Bool) (journal : Array Event) : String :=
  if verbose then logText journal else ""

/-- Runs a scenario on an empty network. -/
def runScenario (verbose : Bool) (act : Scenario ScenarioReport) : Outcome :=
  match act Network.empty with
  | .ok report net => { stdout := report.text ++ "\n", stderr := logIf verbose net.journal }
  | .error (.refused e) net =>
    .failure (logIf verbose net.journal ++ "Error: " ++ e.message ++ "\n")
  | .error _ _ => .breakdown

/-- Runs the scenarios asked for, the chain first. -/
def runScenarios (args : Arguments) (settings : Settings) : Outcome :=
  let chain := match args.chain with
    | some n => runScenario args.verbose (Scenario.chain (settings.withChainLength n).chain)
    | none => {}
  chain.andThen fun _ =>
    match args.projection with
    | some n =>
      runScenario args.verbose (Scenario.projection (settings.withProjectionSize n).projection)
    | none => {}

/-- Runs the script `source`, which is known as `file`. -/
def runScript (verbose : Bool) (settings : Settings) (source file : String) : Outcome :=
  let run := Script.run settings.script source
  let log := logIf verbose run.journal
  match run.result with
  | .ok lines => { stdout := Script.transcriptText lines, stderr := log }
  | .error (.refused e) =>
    match e.diagnostic.report? source file with
    | some report => .failure (log ++ report)
    | none => .breakdown
  | .error _ => .breakdown

variable {m : Type → Type} [Monad m]

/-- Reads the settings file, if there is one. -/
def loadSettings (readFile : String → m (Except ReadError String)) :
    Option String → m (Except Outcome Settings)
  | none => pure (.ok .initial)
  | some name => do
    let complain (text : String) : Except Outcome Settings :=
      .error (.failure ("Error loading config '" ++ name ++ "': " ++ text ++ "\n"))
    match ← readFile name with
    | .error e => pure (complain ("Failed to read config file: " ++ e.message))
    | .ok source =>
      match Settings.parse source with
      | .error e => pure (complain e.message)
      | .ok settings => pure (.ok settings)

/-- Reads and runs a script, from a file or from the standard input. -/
def runInput (readFile : String → m (Except ReadError String))
    (readStdin : m (Except ReadError String)) (args : Arguments) (settings : Settings) :
    m Outcome := do
  match args.input with
  | some name =>
    match ← readFile name with
    | .error e =>
      pure (.failure ("Error reading file '" ++ name ++ "': " ++ e.message ++ "\n"))
    | .ok source => pure (runScript args.verbose settings source name)
  | none =>
    match ← readStdin with
    | .error e => pure (.failure ("Error reading from stdin: " ++ e.message ++ "\n"))
    | .ok source => pure (runScript args.verbose settings source "<stdin>")

/-- The whole program. -/
def run (readFile : String → m (Except ReadError String))
    (readStdin : m (Except ReadError String)) (args : List String) : m Outcome := do
  match readArguments args with
  | .error .help => pure { stdout := helpText }
  | .error (.usage e) => pure { code := 2, stderr := e.report }
  | .ok args =>
    match ← loadSettings readFile args.config with
    | .error outcome => pure outcome
    | .ok settings =>
      if args.chain.isSome || args.projection.isSome then pure (runScenarios args settings)
      else runInput readFile readStdin args settings

end ConstraintHierarchy.CommandLine
