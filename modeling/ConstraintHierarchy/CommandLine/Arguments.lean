/-!
# Command-line arguments

Arguments are read from left to right. An option that takes a value keeps waiting for it until the
value comes; the value itself is looked at when the next option or file is found, or at the end. The
first argument that does not fit ends the reading.
-/

namespace ConstraintHierarchy.CommandLine

/-- What can be given on the command line. -/
inductive Parameter where
  | input
  | config
  | chain
  | projection
  | verbose
  | help
  deriving DecidableEq

namespace Parameter

/-- How messages write a parameter. -/
def display : Parameter → String
  | input => "[INPUT]"
  | config => "--config <CONFIG>"
  | chain => "--chain <N>"
  | projection => "--projection <N>"
  | verbose => "--verbose"
  | help => "--help"

def takesValue : Parameter → Bool
  | verbose => false
  | help => false
  | _ => true

def ofLong? : String → Option Parameter
  | "config" => some config
  | "chain" => some chain
  | "projection" => some projection
  | "verbose" => some verbose
  | "help" => some help
  | _ => none

def ofShort? : Char → Option Parameter
  | 'c' => some config
  | 'v' => some verbose
  | 'h' => some help
  | _ => none

end Parameter

/-! ## Whole numbers -/

/-- Why a text is not a size. -/
inductive NumberError where
  | empty
  | invalidDigit
  | tooLarge
  deriving DecidableEq

def NumberError.message : NumberError → String
  | empty => "cannot parse integer from empty string"
  | invalidDigit => "invalid digit found in string"
  | tooLarge => "number too large to fit in target type"

/-- The largest size, `2 ^ 64 - 1`. -/
def maxSize : Nat := 18446744073709551615

/-- Continues a number with more digits, as long as it stays a size. -/
def readDigits (n : Nat) : List Char → Except NumberError Nat
  | [] => .ok n
  | c :: cs =>
    if !c.isDigit then .error .invalidDigit
    else
      let next := 10 * n + (c.toNat - '0'.toNat)
      if next ≤ maxSize then readDigits next cs else .error .tooLarge

/-- Reads a size: digits, after a plus sign if there is one. -/
def readSize (s : String) : Except NumberError Nat :=
  match s.toList with
  | [] => .error .empty
  | '+' :: c :: cs => readDigits 0 (c :: cs)
  | cs => readDigits 0 cs

/-! ## Reading arguments -/

/-- What the command line asks for. -/
structure Arguments where
  input : Option String := none
  config : Option String := none
  chain : Option Nat := none
  projection : Option Nat := none
  verbose : Bool := false

/-- Why the arguments make no sense. -/
inductive UsageError where
  /-- nothing of this name exists; `tip` tells how to give it as a file -/
  | unexpected (argument : String) (tip : Bool)
  | repeated (p : Parameter)
  | invalidValue (value : String) (p : Parameter) (reason : NumberError)
  | missingValue (p : Parameter)
  | unneededValue (value : String) (p : Parameter)

/-- Why reading the arguments ends early. -/
inductive Stop where
  | help
  | usage (e : UsageError)

/-- Progress in reading the arguments. -/
structure State where
  result : Arguments := {}
  given : List Parameter := []
  /-- the parameter whose value is still to be looked at, or still to come -/
  pending : Option (Parameter × Option String) := none
  /-- only files follow -/
  onlyFiles : Bool := false
  /-- a file was given -/
  hasInput : Bool := false

abbrev Step := State → Except Stop State

/-- Stores a number given for `p`. -/
def State.setSize (st : State) (p : Parameter) (value : String)
    (update : Arguments → Nat → Arguments) : Except Stop State :=
  match readSize value with
  | .ok n => .ok { st with result := update st.result n }
  | .error e => .error (.usage (.invalidValue value p e))

/-- Stores the name of a file given for `p`. -/
def State.setFile (st : State) (p : Parameter) (value : String)
    (update : Arguments → String → Arguments) : Except Stop State :=
  if value.isEmpty then .error (.usage (.missingValue p))
  else .ok { st with result := update st.result value }

/-- Notes that `p` was given, which may happen only once. -/
def State.mention (st : State) (p : Parameter) : Except Stop State :=
  if p ∈ st.given then .error (.usage (.repeated p))
  else .ok { st with given := st.given ++ [p] }

/-- Takes the value of `p`. -/
def State.take (st : State) (p : Parameter) (value : String) : Except Stop State := do
  let st ← st.mention p
  match p with
  | .input => st.setFile p value fun a x => { a with input := some x }
  | .config => st.setFile p value fun a x => { a with config := some x }
  | .chain => st.setSize p value fun a n => { a with chain := some n }
  | .projection => st.setSize p value fun a n => { a with projection := some n }
  | .verbose => pure { st with result := { st.result with verbose := true } }
  | .help => .error .help

/-- Looks at the value that waited. -/
def State.settle (st : State) : Except Stop State :=
  match st.pending with
  | none => .ok st
  | some (p, none) => .error (.usage (.missingValue p))
  | some (p, some value) => { st with pending := none }.take p value

/-- An option without a value. -/
def flag (p : Parameter) : Step := fun st => do
  let st ← st.settle
  st.take p ""

/-- An option with its value in the same argument. -/
def attached (p : Parameter) (value : String) : Step := fun st => do
  let st ← st.settle
  st.take p value

/-- An option whose value comes next. -/
def awaiting (p : Parameter) : Step := fun st => do
  let st ← st.settle
  return { st with pending := some (p, none) }

/-- An argument `--name` or `--name=value`. -/
def long (name : String) (value : Option String) : Step := fun st =>
  match Parameter.ofLong? name with
  | none => .error (.usage (.unexpected ("--" ++ name) true))
  | some p =>
    match p.takesValue, value with
    | true, some v => attached p v st
    | true, none => awaiting p st
    | false, some v => .error (.usage (.unneededValue v p))
    | false, none => flag p st

/-- The letters after a single dash. The first that takes a value gets the rest as its value. -/
def short : List Char → Step
  | [], st => .ok st
  | c :: cs, st =>
    match Parameter.ofShort? c with
    | none => .error (.usage (.unexpected ("-" ++ String.singleton c) true))
    | some p =>
      if p.takesValue then
        match cs with
        | [] => awaiting p st
        | '=' :: v => attached p (String.ofList v) st
        | v => attached p (String.ofList v) st
      else do
        let st ← flag p st
        short cs st

/-- The name of a file. -/
def file (name : String) : Step := fun st =>
  if st.hasInput then .error (.usage (.unexpected name false))
  else do
    let st ← st.settle
    return { st with pending := some (.input, some name), hasInput := true }

/-- An argument that is no option: a value that was waited for, or a file. -/
def plain (text : String) : Step := fun st =>
  match st.pending with
  | some (p, none) => .ok { st with pending := some (p, some text) }
  | _ => file text st

/-- Splits `name=value` at the first equals sign. -/
def splitValue (cs : List Char) : String × Option String :=
  match cs.dropWhile (· ≠ '=') with
  | [] => (String.ofList cs, none)
  | _ :: v => (String.ofList (cs.takeWhile (· ≠ '=')), some (String.ofList v))

/-- One argument. -/
def argument (text : String) : Step := fun st =>
  if st.onlyFiles then file text st
  else
    match text.toList with
    | ['-', '-'] => .ok { st with onlyFiles := true }
    | '-' :: '-' :: cs => let (name, value) := splitValue cs; long name value st
    | '-' :: c :: cs => short (c :: cs) st
    | _ => plain text st

/-- Reads all arguments. -/
def readArguments (args : List String) : Except Stop Arguments := do
  let st ← args.foldlM (fun st text => argument text st) {}
  let st ← st.settle
  return st.result

/-! ## Texts -/

def usageLine : String := "Usage: deltablue [OPTIONS] [INPUT]\n"

def helpText : String :=
  "Incremental constraint hierarchy solver\n\n" ++ usageLine ++
  "\nArguments:\n" ++
  "  [INPUT]  Script file (reads from stdin if not provided)\n" ++
  "\nOptions:\n" ++
  "  -c, --config <CONFIG>  Configuration file (TOML format)\n" ++
  "      --chain <N>        Run the chain scenario with this many equalities instead of a " ++
  "script\n" ++
  "      --projection <N>   Run the projection scenario with this many pairs instead of a " ++
  "script\n" ++
  "  -v, --verbose          Log solver activity (overridden by RUST_LOG)\n" ++
  "  -h, --help             Print help\n"

namespace UsageError

def text : UsageError → String
  | unexpected argument _ => "unexpected argument '" ++ argument ++ "' found"
  | repeated p => "the argument '" ++ p.display ++ "' cannot be used multiple times"
  | invalidValue value p reason =>
    "invalid value '" ++ value ++ "' for '" ++ p.display ++ "': " ++ reason.message
  | missingValue p => "a value is required for '" ++ p.display ++ "' but none was supplied"
  | unneededValue value p =>
    "unexpected value '" ++ value ++ "' for '" ++ p.display ++
      "' found; no more were expected"

def tip : UsageError → String
  | unexpected argument true =>
    "  tip: to pass '" ++ argument ++ "' as a value, use '-- " ++ argument ++ "'\n\n"
  | _ => ""

/-- The error is about the shape of the command line rather than about a value. -/
def showsUsage : UsageError → Bool
  | invalidValue _ _ _ => false
  | missingValue _ => false
  | _ => true

/-- Everything that is said about the error. -/
def report (e : UsageError) : String :=
  "error: " ++ e.text ++ "\n\n" ++ e.tip ++ (if e.showsUsage then usageLine ++ "\n" else "") ++
    "For more information, try '--help'.\n"

end UsageError

end ConstraintHierarchy.CommandLine
