import ConstraintHierarchy.Network.Basic

/-!
# Methods in a network

What a single constraint does to the network: choosing its method, marking what it reads, computing
its output and bringing the annotations of the output up to date.
-/

namespace ConstraintHierarchy.Network

open Solve

/-- Registers `c` with every variable it mentions. -/
def attachTo (c : ConstraintId) : List VariableId → Solve Unit
  | [] => pure ()
  | v :: vs => do
    updateVariable v (·.attach c)
    attachTo c vs

/-- Makes every given variable forget `c`. -/
def detachFrom (c : ConstraintId) : List VariableId → Solve Unit
  | [] => pure ()
  | v :: vs => do
    updateVariable v (·.detach c)
    detachFrom c vs

/-- Takes `c` out of the graph; its place among the constraints remains. -/
def detach (c : ConstraintId) : Solve Unit := do
  let k ← readConstraint c
  detachFrom c k.kind.operands
  updateConstraint c fun k => { k with flow := none, attached := false }

/-- The method for `c` in the walk `mark`, if there is one. -/
def chooseFlow (mark : Nat) (c : ConstraintId) : Solve (Option Flow) := do
  let k ← readConstraint c
  match k.kind with
  | .stay v | .edit v => return unaryFlow k.strength mark (← readVariable v)
  | .equal a b | .scale a b _ _ =>
    let x ← readVariable a
    let y ← readVariable b
    return binaryFlow k.strength mark x y

/-- Gives every listed variable the number of the walk. -/
def markAll (mark : Nat) : List VariableId → Solve Unit
  | [] => pure ()
  | v :: vs => do
    updateVariable v fun x => { x with mark := mark }
    markAll mark vs

/-- Computes the output of `c` from what it reads. Without a chosen method the second variable is
read and the first computed. -/
def execute (c : ConstraintId) : Solve Unit := do
  let k ← readConstraint c
  match k.kind with
  | .stay _ | .edit _ => pure ()
  | .equal a b =>
    if k.flow = some .forward then
      setValue b (← readValue a)
    else
      setValue a (← readValue b)
  | .scale a b factor offset =>
    let m ← readValue factor
    let d ← readValue offset
    if k.flow = some .forward then
      setValue b ((← readValue a) * m + d)
    else if m == 0.0 then
      refuse (.divisionByZero c)
    else
      setValue a (((← readValue b) - d) / m)

/-- Brings the annotations of the output of `c` up to date, and its value too if it stays. -/
def recalculate (c : ConstraintId) : Solve Unit := do
  let k ← readConstraint c
  let input ← readVariables k.input.toList
  let parameters ← readVariables k.kind.parameters
  let a := k.annotation input.head? parameters
  updateVariable k.output (·.annotate a)
  if a.stay then execute c else pure ()

/-- The satisfied constraints among those listed. -/
def satisfiedAmong : List ConstraintId → Solve (List ConstraintId)
  | [] => pure []
  | c :: cs => do
    let k ← readConstraint c
    let rest ← satisfiedAmong cs
    pure (if k.isSatisfied then c :: rest else rest)

/-- The satisfied constraints that read `v`: all that mention it but the one that computes it. -/
def consumers (v : VariableId) : Solve (List ConstraintId) := do
  let x ← readVariable v
  satisfiedAmong (x.constraints.filter (x.determinedBy ≠ some ·))

end ConstraintHierarchy.Network
