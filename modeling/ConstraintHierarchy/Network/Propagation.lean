import ConstraintHierarchy.Network.Method

/-!
# Propagation

Two walks along the dataflow. `walk` follows a newly chosen method downstream and brings everything
there up to date, unless it meets a variable of its own mark, which shows a cycle. `release` does
the same below a variable that has just lost its method, and collects the constraints that could
take it over.

Both visit the network generation by generation: everything found while one generation is visited
belongs to the next. A path that repeats no constraint is no longer than there are constraints, so a
walk with more generations than that follows a cycle of the dataflow, such as a division by zero can
leave. There it may go on for ever, or come to an end in any later generation when a constraint on the
cycle or below it divides by zero. It is followed as long as the patience of the network lasts and then
given up as `endless`.
-/

namespace ConstraintHierarchy.Network

open Solve

/-! ## Downstream of a new method -/

/-- Result of visiting part of a generation. -/
inductive Visit where
  /-- a variable of the walk's own mark was met -/
  | met (v : VariableId)
  /-- constraints found for the next generation -/
  | onward (next : List ConstraintId)

/-- Brings the output of one constraint up to date. -/
def visit (mark : Nat) (d : ConstraintId) : Solve Visit := do
  let k ← readConstraint d
  let x ← readVariable k.output
  if x.mark = mark then
    pure (.met k.output)
  else
    recalculate d
    let next ← consumers k.output
    pure (.onward next)

/-- Visits one generation in order. -/
def visitAll (mark : Nat) : List ConstraintId → Solve Visit
  | [] => pure (.onward [])
  | d :: ds => do
    match ← visit mark d with
    | .met v => pure (.met v)
    | .onward next =>
      match ← visitAll mark ds with
      | .met v => pure (.met v)
      | .onward more => pure (.onward (next ++ more))

/-- Visits at most `n` generations, the first of which is given. Answers the marked variable that
was met, if any. -/
def walk (mark : Nat) : Nat → List ConstraintId → Solve (Option VariableId)
  | _, [] => pure none
  | 0, _ :: _ => throw .endless
  | n + 1, d :: ds => do
    match ← visitAll mark (d :: ds) with
    | .met v => pure (some v)
    | .onward next => walk mark n next

/-- Gives every variable the value it has in `before`. -/
def restoreValues (before : Array Variable) : Solve Unit :=
  modify fun net =>
    { net with
      vars := net.vars.zipWith (fun x old => { x with value := old.value }) before }

/-! ## Downstream of a lost method -/

/-- Extends `found` by the unsatisfied constraints listed, each once, in the order met. -/
def collectUnsatisfied (found : List ConstraintId) :
    List ConstraintId → Solve (List ConstraintId)
  | [] => pure found
  | c :: cs => do
    let k ← readConstraint c
    if k.isSatisfied || found.contains c then
      collectUnsatisfied found cs
    else
      collectUnsatisfied (found ++ [c]) cs

/-- Brings the outputs of the constraints listed up to date, and answers them. -/
def recalculateAll : List ConstraintId → Solve (List VariableId)
  | [] => pure []
  | d :: ds => do
    recalculate d
    let k ← readConstraint d
    let rest ← recalculateAll ds
    pure (k.output :: rest)

/-- Visits one generation of variables: collects the unsatisfied constraints on them and brings
what reads them up to date. -/
def releaseAll (found : List ConstraintId) :
    List VariableId → Solve (List ConstraintId × List VariableId)
  | [] => pure (found, [])
  | v :: vs => do
    let x ← readVariable v
    let found ← collectUnsatisfied found x.constraints
    let next ← recalculateAll (← consumers v)
    let (found, more) ← releaseAll found vs
    pure (found, next ++ more)

/-- Visits at most `n` generations of variables, the first of which is given. -/
def releaseFrom (found : List ConstraintId) :
    Nat → List VariableId → Solve (List ConstraintId)
  | _, [] => pure found
  | 0, _ :: _ => throw .endless
  | n + 1, v :: vs => do
    let (found, next) ← releaseAll found (v :: vs)
    releaseFrom found n next

/-- Makes `out` undetermined and brings everything downstream of it up to date. Answers the
unsatisfied constraints on the variables visited, in the order met. -/
def release (out : VariableId) : Solve (List ConstraintId) := do
  updateVariable out (·.undetermined)
  releaseFrom [] (← get).generations [out]

end ConstraintHierarchy.Network
