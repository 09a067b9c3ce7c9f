import ConstraintHierarchy.Network.Plan
import ConstraintHierarchy.Script.Parsing
import ConstraintHierarchy.Script.Similar
import ConstraintHierarchy.Settings.Basic

/-!
# Running scripts

A session holds the network that a script builds, the names it has declared and the lines it has
printed. Statements are actions on a session; one that fails leaves the session as far as it got.

## Main definitions

* `ScriptError`: why a statement fails
* `Session`: what a script has built so far
* `execute`: one statement
* `run`: a whole script, stopping at the first failure
-/

namespace ConstraintHierarchy.Script

/-- Why a statement fails. -/
inductive ScriptError where
  | undefined (name : Name) (suggestions : List String)
  | redefined (name : Name) (previous : Span)
  | unexpectedValue (name : String) (expected actual : Float) (span : Span)
  | solver (e : SolveError) (span : Span)

namespace ScriptError

def message : ScriptError → String
  | undefined name _ => "undefined variable '" ++ name.item ++ "'"
  | redefined name _ => "variable '" ++ name.item ++ "' is already defined"
  | unexpectedValue name expected actual _ =>
    "expected " ++ name ++ " to be " ++ Decimal.plain.write expected ++ ", but it is " ++
      Decimal.plain.write actual
  | solver e _ => e.message

/-- The place in the script that the error is about. -/
def span : ScriptError → Span
  | undefined name _ => name.span
  | redefined name _ => name.span
  | unexpectedValue _ _ _ span => span
  | solver _ span => span

end ScriptError

/-- A declared name. -/
structure Declaration where
  name : String
  id : VariableId
  /-- where the name was declared -/
  span : Span

/-- What a script has built so far. -/
structure Session where
  network : Network := {}
  /-- the declared names, oldest first -/
  names : List Declaration := []
  /-- the lines printed, oldest first -/
  transcript : Array String := #[]

namespace Session

/-- The session of a script that has not begun. -/
def empty (patience : Nat := Network.tireless) : Session := { network := .empty patience }

def find? (s : Session) (name : String) : Option Declaration := s.names.find? (·.name == name)

def lookup? (s : Session) (name : String) : Option VariableId := (s.find? name).map (·.id)

end Session

/-- A step of a script. -/
abbrev Interpret := EStateM (Failure ScriptError) Session

/-- Carries out an action on the network of the session, on behalf of the statement at `span`. -/
def onNetwork {α : Type} (span : Span) (act : Solve α) : Interpret α := fun s =>
  match act s.network with
  | .ok a net => .ok a { s with network := net }
  | .error f net => .error (f.map (.solver · span)) { s with network := net }

def printLine (line : String) : Interpret Unit :=
  modify fun s => { s with transcript := s.transcript.push line }

/-- The variable of a declared name. -/
def resolve (name : Name) : Interpret VariableId := do
  let s ← get
  match s.find? name.item with
  | some d => pure d.id
  | none =>
    throw (.refused (.undefined name (similarNames (s.names.map (·.name)) name.item 2)))

/-- The current value of a variable. -/
def currentValue (span : Span) (v : VariableId) : Interpret Float :=
  onNetwork span (Solve.readValue v)

/-- Declares a name that is still free. -/
def declare (name : Name) (value : Float) : Interpret Unit := do
  match (← get).find? name.item with
  | some d => throw (.refused (.redefined name d.span))
  | none =>
    let v ← onNetwork name.span do
      let v ← Network.addVariable name.item value
      Solve.note (.declaring name.item value)
      pure v
    modify fun s => { s with names := s.names ++ [⟨name.item, v, name.span⟩] }

/-- Adds a constraint on behalf of the statement at `span`. -/
def constrain (span : Span) (kind : Kind) (strength : Strength) : Interpret Unit := do
  let _ ← onNetwork span (Network.addConstraint kind strength)

/-- The larger of a magnitude and one. -/
def atLeastOne (x : Float) : Float := if 1.0 < x then x else 1.0

/-- The values agree up to a relative error of `1e-9`, absolute below one. -/
def closeTo (actual expected : Float) : Bool :=
  decide ((actual - expected).abs ≤ 1e-9 * atLeastOne expected.abs)

/-- Carries out one statement. -/
def execute (settings : ScriptSettings) (statement : Located Statement) : Interpret Unit :=
  let span := statement.span
  match statement.item with
  | .declare name value => declare name value
  | .stay name strength => do
    let v ← resolve name
    constrain span (.stay v) strength
  | .edit name strength => do
    let v ← resolve name
    constrain span (.edit v) strength
  | .equal left right strength => do
    let a ← resolve left
    let b ← resolve right
    constrain span (.equal a b) strength
  | .scale source factor offset target strength => do
    let a ← resolve source
    let f ← resolve factor
    let o ← resolve offset
    let b ← resolve target
    constrain span (.scale a b f o) strength
  | .change name value => do
    let v ← resolve name
    onNetwork span (Network.change v value settings.editStrength settings.changeIterations)
    printLine ("change " ++ name.item ++ " = " ++ Decimal.plain.write value)
  | .expect name value => do
    let v ← resolve name
    let actual ← currentValue span v
    if closeTo actual value then pure ()
    else throw (.refused (.unexpectedValue name.item value actual span))
  | .print name => do
    let v ← resolve name
    let value ← currentValue span v
    printLine (name.item ++ " = " ++ Decimal.plain.write value)

/-- Carries out statements in order. -/
def executeAll (settings : ScriptSettings) : List (Located Statement) → Interpret Unit
  | [] => pure ()
  | s :: ss => do
    execute settings s
    executeAll settings ss

/-! ## Whole scripts -/

/-- Why a script does not run to its end. -/
inductive RunError where
  | parse (e : ParseError)
  | script (e : ScriptError)

def RunError.message : RunError → String
  | parse e => "parse errors: " ++ e.text
  | script e => "script error: " ++ e.message

/-- The outcome of a script: the lines printed if it ran to its end, and the journal in any case. -/
structure Run where
  result : Except (Failure RunError) (List String)
  journal : Array Event

/-- Runs a script in a new session. -/
def run (settings : ScriptSettings) (source : String) (patience : Nat := Network.tireless) : Run :=
  match parse source with
  | .error e => ⟨.error (.refused (.parse e)), #[]⟩
  | .ok statements =>
    match executeAll settings statements (.empty patience) with
    | .ok _ s => ⟨.ok s.transcript.toList, s.network.journal⟩
    | .error f s => ⟨.error (f.map .script), s.network.journal⟩

/-- The lines of a transcript as one text. -/
def transcriptText (lines : List String) : String := String.join (lines.map (· ++ "\n"))

end ConstraintHierarchy.Script
