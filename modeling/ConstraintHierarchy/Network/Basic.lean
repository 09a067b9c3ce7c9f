import ConstraintHierarchy.Constraint

/-!
# Networks

A network holds every variable and every constraint ever created, destroyed ones included, and the
number of the latest walk. Operations on it are actions of `Solve`: they may be refused, and a
refused action keeps whatever it has already done, so the state is part of both outcomes.

A network keeps a journal of what happened to it, so that a caller can show the work behind an
answer. An event names the things involved; how it reads in a log is decided where the log is
written.

An operation may not return at all: a walk that follows a cycle of computations can go on for ever.
So a network says how long its walks are followed, and what has not come to an end by then is given
up. Nothing but this breakdown depends on the number, and what holds of operations that return holds
for every number.

## Main definitions

* `SolveError`: why an operation on a network is refused
* `Failure`: a refusal, or a breakdown
* `Event`: what the journal is made of
* `Network`: the state
* `Solve`: actions on it, with the primitive reads and writes
-/

namespace ConstraintHierarchy

/-! ## Refusals and breakdowns -/

/-- Why an operation on a network is refused. -/
inductive SolveError where
  /-- a required constraint has no method that could be chosen -/
  | unsatisfiable (c : ConstraintId)
  /-- a constraint would compute a variable from itself -/
  | cycle (c : ConstraintId)
  | noWeaker (s : Strength)
  /-- a scale constraint flows backward while its factor is zero -/
  | divisionByZero (c : ConstraintId)
  | unknownVariable (v : VariableId)
  | unknownConstraint (c : ConstraintId)
  /-- a destroyed constraint was used -/
  | detached (c : ConstraintId)
  deriving DecidableEq

namespace SolveError

def message : SolveError → String
  | unsatisfiable c => "could not satisfy required constraint " ++ c.label
  | cycle c => "cycle encountered while adding constraint " ++ c.label
  | noWeaker s => "there is no strength weaker than " ++ s.name
  | divisionByZero c =>
    "scale constraint " ++ c.label ++ " cannot flow backward through a zero scale"
  | unknownVariable v => "unknown variable " ++ v.label
  | unknownConstraint c => "unknown constraint " ++ c.label
  | detached c => "constraint " ++ c.label ++ " is no longer part of the graph"

/-- The refusal promises that the network is as it was before. -/
def isRolledBack : SolveError → Bool
  | unsatisfiable _ => false
  | divisionByZero _ => false
  | _ => true

end SolveError

/-- The level directly below `s`. -/
def Strength.nextWeaker (s : Strength) : Except SolveError Strength :=
  match s.next? with
  | some t => .ok t
  | none => .error (.noWeaker s)

/-- What stops an action: a refusal, for a reason of type `ε`, or a breakdown. -/
inductive Failure (ε : Type) where
  | refused (reason : ε)
  /-- an id was followed that names nothing in the network -/
  | outOfRange
  /-- a walk had not come to an end when the patience of the network did -/
  | endless

namespace Failure

variable {ε δ : Type}

/-- Restates the reason of a refusal. -/
def map (f : ε → δ) : Failure ε → Failure δ
  | refused reason => refused (f reason)
  | outOfRange => outOfRange
  | endless => endless

end Failure

/-! ## The state -/

/-- One thing worth telling about a run. -/
inductive Event where
  /-- a constraint was registered and is about to be satisfied -/
  | adding (c : ConstraintId) (kind : Kind) (strength : Strength)
  /-- somebody asked for a constraint to be retracted -/
  | destroying (c : ConstraintId)
  /-- a constraint that `cause` displaced looks for another method -/
  | resatisfying (c cause : ConstraintId)
  /-- installing `c` closed a cycle, noticed at `meeting` -/
  | rollingBack (c : ConstraintId) (meeting : VariableId)
  /-- `c` no longer computes `output`; so many unsatisfied constraints are retried -/
  | repairing (c : ConstraintId) (output : VariableId) (candidates : Nat)
  /-- a script declared a variable -/
  | declaring (name : String) (value : Float)
  /-- the chain scenario starts -/
  | startingChain (length steps : Nat)
  /-- the projection scenario starts -/
  | startingProjection (size : Nat)

/-- So much patience, `2 ^ 62` generations, outlasts every computer. -/
def Network.tireless : Nat := 4611686018427387904

/-- Variables and constraints, addressed by position. -/
structure Network where
  /-- the number of the latest walk. Walks are counted without end; that a counter of 64 bits comes
  back to a number it has had, after `2 ^ 64` walks, is left out -/
  mark : Nat := 0
  vars : Array Variable := #[]
  constraints : Array Constraint := #[]
  /-- what happened so far, oldest first -/
  journal : Array Event := #[]
  /-- for how many more generations a walk is followed than it has if no variable is computed from
  itself -/
  patience : Nat := Network.tireless
  deriving Inhabited

namespace Network

/-- The network without variables and constraints. -/
def empty (patience : Nat := tireless) : Network := { patience }

def getVariable? (net : Network) (v : VariableId) : Option Variable := net.vars[v.index]?

def getConstraint? (net : Network) (c : ConstraintId) : Option Constraint :=
  net.constraints[c.index]?

/-- How many generations a walk is followed, and how deep roll-backs may nest. A path that repeats no
constraint is no longer than there are constraints. -/
def generations (net : Network) : Nat := net.constraints.size + net.patience + 1

end Network

/-! ## Actions -/

/-- An action on a network. A failing action leaves what it has done so far. -/
abbrev Solve := EStateM (Failure SolveError) Network

namespace Solve

variable {α : Type}

/-- Stops the action for a reason that is the caller's to handle. -/
def refuse (e : SolveError) : Solve α := throw (.refused e)

def note (e : Event) : Solve Unit :=
  modify fun net => { net with journal := net.journal.push e }

/-- Starts a new walk. -/
def freshMark : Solve Nat := do
  modify fun net => { net with mark := net.mark + 1 }
  return (← get).mark

def readVariable (v : VariableId) : Solve Variable := do
  match (← get).getVariable? v with
  | some x => pure x
  | none => throw .outOfRange

def readConstraint (c : ConstraintId) : Solve Constraint := do
  match (← get).getConstraint? c with
  | some k => pure k
  | none => throw .outOfRange

/-- The variables with the given ids, in that order. -/
def readVariables : List VariableId → Solve (List Variable)
  | [] => pure []
  | v :: vs => do
    let x ← readVariable v
    let xs ← readVariables vs
    pure (x :: xs)

def updateVariable (v : VariableId) (f : Variable → Variable) : Solve Unit := do
  if v.index < (← get).vars.size then
    modify fun net => { net with vars := net.vars.modify v.index f }
  else
    throw .outOfRange

def updateConstraint (c : ConstraintId) (f : Constraint → Constraint) : Solve Unit := do
  if c.index < (← get).constraints.size then
    modify fun net => { net with constraints := net.constraints.modify c.index f }
  else
    throw .outOfRange

def readValue (v : VariableId) : Solve Float := return (← readVariable v).value

def setValue (v : VariableId) (value : Float) : Solve Unit :=
  updateVariable v fun x => { x with value := value }

/-- Refuses an id that names no variable. -/
def checkVariable (v : VariableId) : Solve Unit := do
  match (← get).getVariable? v with
  | some _ => pure ()
  | none => refuse (.unknownVariable v)

def checkVariables : List VariableId → Solve Unit
  | [] => pure ()
  | v :: vs => do
    checkVariable v
    checkVariables vs

/-- Refuses an id that names no constraint, or a destroyed one. -/
def checkAttached (c : ConstraintId) : Solve Unit := do
  match (← get).getConstraint? c with
  | none => refuse (.unknownConstraint c)
  | some k => if k.attached then pure () else refuse (.detached c)

def checkAllAttached : List ConstraintId → Solve Unit
  | [] => pure ()
  | c :: cs => do
    checkAttached c
    checkAllAttached cs

/-- Runs `cleanup` after `act`, also when `act` is refused; the refusal of `act` comes first. -/
def always (act cleanup : Solve Unit) : Solve Unit := fun net =>
  match act net with
  | .ok _ net => cleanup net
  | .error (.refused e) net =>
    match cleanup net with
    | .ok _ net => .error (.refused e) net
    | .error (.refused _) net => .error (.refused e) net
    | .error breakdown net => .error breakdown net
  | .error breakdown net => .error breakdown net

end Solve

namespace Network

/-- Creates a variable that no constraint mentions. -/
def addVariable (name : String) (value : Float) : Solve VariableId := do
  let v : VariableId := ⟨(← get).vars.size⟩
  modify fun net => { net with vars := net.vars.push { name, value } }
  return v

/-- The current value of a known variable. -/
def valueOf (v : VariableId) : Solve Float := do
  Solve.checkVariable v
  Solve.readValue v

/-- Assigns a known variable from outside. -/
def assign (v : VariableId) (value : Float) : Solve Unit := do
  Solve.checkVariable v
  Solve.setValue v value

end Network

end ConstraintHierarchy
