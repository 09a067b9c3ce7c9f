import ConstraintHierarchy.Network.Incremental

/-!
# Plans

A plan lists constraints in an order in which executing them once brings every value downstream of
the edits up to date. It stays valid as long as the method graph does not change, so an interactive
caller extracts it once and replays it for every new value.
-/

namespace ConstraintHierarchy

/-- Constraints to execute in order. -/
structure Plan where
  steps : List ConstraintId := []
  deriving DecidableEq, Inhabited

namespace Plan

def push (p : Plan) (c : ConstraintId) : Plan := ⟨p.steps ++ [c]⟩

end Plan

namespace Network

open Solve

/-! ## Extraction -/

/-- The input of `k`, if it has one, is computed by the plan already, or stays, or is computed by
nothing. -/
def inputKnown (mark : Nat) (k : Constraint) : Solve Bool :=
  match k.input with
  | none => pure true
  | some v => do
    let x ← readVariable v
    pure (x.mark == mark || x.stay || x.determinedBy.isNone)

/-- Appends the constraints of one generation whose output is still open and whose input is known.
Answers the steps taken and what reads their outputs. -/
def planAll (mark : Nat) :
    List ConstraintId → Solve (List ConstraintId × List ConstraintId)
  | [] => pure ([], [])
  | c :: cs => do
    let k ← readConstraint c
    let x ← readVariable k.output
    let known ← inputKnown mark k
    if x.mark ≠ mark ∧ known = true then
      updateVariable k.output fun x => { x with mark := mark }
      let next ← consumers k.output
      let (steps, more) ← planAll mark cs
      pure (c :: steps, next ++ more)
    else
      planAll mark cs

/-- Plans at most `n` generations, the first of which is given. -/
def planFrom (mark : Nat) : Nat → List ConstraintId → Solve (List ConstraintId)
  | _, [] => pure []
  | 0, _ :: _ => throw .endless
  | n + 1, c :: cs => do
    let (steps, next) ← planAll mark (c :: cs)
    let later ← planFrom mark n next
    pure (steps ++ later)

/-- The plan that starts from the given constraints, which should be satisfied. Every generation but
the last marks a variable, so their number bounds the generations. -/
def makePlan (sources : List ConstraintId) : Solve Plan := do
  checkAllAttached sources
  let mark ← freshMark
  let steps ← planFrom mark ((← get).vars.size + 1) sources
  return ⟨steps⟩

/-- The satisfied input constraints among those listed, all of which have to be in the graph. -/
def satisfiedInputs : List ConstraintId → Solve (List ConstraintId)
  | [] => pure []
  | c :: cs => do
    checkAttached c
    let k ← readConstraint c
    let rest ← satisfiedInputs cs
    pure (if k.isInput && k.isSatisfied then c :: rest else rest)

/-- The plan for the satisfied edits among the given constraints. -/
def extractPlan (cs : List ConstraintId) : Solve Plan := do
  makePlan (← satisfiedInputs cs)

/-! ## Execution -/

/-- Executes constraints in order. -/
def executeAll : List ConstraintId → Solve Unit
  | [] => pure ()
  | c :: cs => do
    execute c
    executeAll cs

def runPlan (p : Plan) : Solve Unit := executeAll p.steps

/-- Assigns `value` to `v` and executes the plan, `n` times over. -/
def replay (p : Plan) (v : VariableId) (value : Float) : Nat → Solve Unit
  | 0 => pure ()
  | n + 1 => do
    setValue v value
    runPlan p
    replay p v value n

/-- Edits `v` for a while: adds an edit, replays its plan with `value` as often as asked, and
retracts the edit again even if the replay is refused. -/
def change (v : VariableId) (value : Float) (strength : Strength) (iterations : Nat) :
    Solve Unit := do
  let edit ← addConstraint (.edit v) strength
  let plan ← extractPlan [edit]
  always (replay plan v value iterations) (destroy edit)

end Network

end ConstraintHierarchy
