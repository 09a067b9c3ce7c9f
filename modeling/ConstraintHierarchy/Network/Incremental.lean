import ConstraintHierarchy.Network.Propagation

/-!
# Adding and retracting constraints

To satisfy a constraint is to choose a method for it. The method may take its output away from a
weaker constraint, which then looks for another method itself, and so on until a constraint takes
over a variable that nobody computed or finds no method. Retracting a constraint frees its output;
the unsatisfied constraints downstream of it are then tried again, strongest first.

A method that closes a cycle is rolled back by retracting its constraint, which may in turn satisfy
others. Each such step takes one constraint out of the graph, so the number of constraints bounds
how deep this nests. The two halves are therefore given relative to each other, `establishUsing` to
the roll-back and `withdrawUsing` to the way in which candidates are retried, and `establish` ties
them together by recursion on a depth that is at least that bound.
-/

namespace ConstraintHierarchy.Network

open Solve

/-- Brings everything downstream of `c` up to date. If `c` closes a cycle, the values are put back,
`c` is rolled back and the cycle refused. -/
def propagate (rollback : ConstraintId → Solve Unit) (mark : Nat) (c : ConstraintId) :
    Solve Unit := do
  let before := (← get).vars
  match ← walk mark (← get).generations [c] with
  | none => pure ()
  | some v =>
    note (.rollingBack c v)
    restoreValues before
    rollback c
    refuse (.cycle c)

/-- Makes an overridden constraint unsatisfied. -/
def displace : Option ConstraintId → Solve Unit
  | none => pure ()
  | some o => updateConstraint o fun k => { k with flow := none }

/-- Chooses a method for `c` and, if there is one, makes it compute its output. Answers the
constraint that computed the output so far. -/
def install (rollback : ConstraintId → Solve Unit) (mark : Nat) (c : ConstraintId) :
    Solve (Option ConstraintId) := do
  let flow ← chooseFlow mark c
  updateConstraint c fun k => { k with flow := flow }
  let k ← readConstraint c
  if k.isSatisfied then
    markAll mark k.reads
    let displaced := (← readVariable k.output).determinedBy
    displace displaced
    updateVariable k.output fun x => { x with determinedBy := some c }
    propagate rollback mark c
    updateVariable k.output fun x => { x with mark := mark }
    pure displaced
  else if k.strength = .required then
    refuse (.unsatisfiable c)
  else
    pure none

/-- Finds another method for a displaced constraint, for the one displaced by that, and so on, in at
most `n` rounds. Every round marks one more variable, so their number bounds the rounds. -/
def resatisfy (rollback : ConstraintId → Solve Unit) (mark : Nat) (cause : ConstraintId) :
    Nat → Option ConstraintId → Solve Unit
  | _, none => pure ()
  | 0, some _ => throw .endless
  | n + 1, some o => do
    note (.resatisfying o cause)
    let displaced ← install rollback mark o
    resatisfy rollback mark cause n displaced

/-- Satisfies `c` if it is strong enough, in a walk of its own. -/
def establishUsing (rollback : ConstraintId → Solve Unit) (c : ConstraintId) : Solve Unit := do
  let mark ← freshMark
  let displaced ← install rollback mark c
  resatisfy rollback mark c (← get).vars.size displaced

/-- Tries the unsatisfied candidates of one strength in order. -/
def retryLevel (retry : ConstraintId → Solve Unit) (level : Strength) :
    List ConstraintId → Solve Unit
  | [] => pure ()
  | u :: us => do
    let k ← readConstraint u
    if k.strength = level ∧ k.isSatisfied = false then retry u else pure ()
    retryLevel retry level us

/-- Tries the candidates level by level. -/
def retryLevels (retry : ConstraintId → Solve Unit) (candidates : List ConstraintId) :
    List Strength → Solve Unit
  | [] => pure ()
  | level :: levels => do
    retryLevel retry level candidates
    retryLevels retry candidates levels

/-- Retracts a satisfied constraint and lets others take over what it computed. -/
def withdrawUsing (retry : ConstraintId → Solve Unit) (c : ConstraintId) : Solve Unit := do
  let out := (← readConstraint c).output
  detach c
  let candidates ← release out
  note (.repairing c out candidates.length)
  retryLevels retry candidates Strength.all

/-- Satisfies `c` if it is strong enough, with roll-backs nested at most `n` deep. -/
def establish : Nat → ConstraintId → Solve Unit
  | 0, _ => throw .endless
  | n + 1, c => establishUsing (withdrawUsing (establish n)) c

/-- Retracts a satisfied constraint, with roll-backs nested at most `n` deep. -/
def withdraw (n : Nat) (c : ConstraintId) : Solve Unit := withdrawUsing (establish n) c

/-- How deep roll-backs may nest: each takes a constraint out of the graph. -/
def nesting : Solve Nat := return (← get).generations

/-! ## Operations -/

/-- Satisfies a known constraint if it is strong enough; one that is satisfied is left alone. -/
def enforce (c : ConstraintId) : Solve Unit := do
  checkAttached c
  if (← readConstraint c).isSatisfied then pure () else establish (← nesting) c

/-- Takes a constraint out of the graph. One that is unsatisfied computes nothing, so nothing has to
be repaired. -/
def retract (c : ConstraintId) : Solve Unit := do
  checkAttached c
  if (← readConstraint c).isSatisfied then withdraw (← nesting) c else detach c

/-- Retracts a constraint and says so in the journal. -/
def destroy (c : ConstraintId) : Solve Unit := do
  note (.destroying c)
  retract c

/-- Registers a new constraint with its variables, unsatisfied. -/
def register (kind : Kind) (strength : Strength) : Solve ConstraintId := do
  let c : ConstraintId := ⟨(← get).constraints.size⟩
  attachTo c kind.operands
  modify fun net =>
    { net with constraints := net.constraints.push { kind, strength, attached := true } }
  note (.adding c kind strength)
  return c

/-- Takes `c` out of the graph again if `act` finds it unsatisfiable. -/
def orDetach (c : ConstraintId) (act : Solve Unit) : Solve Unit := fun net =>
  match act net with
  | .error (.refused (.unsatisfiable d)) net =>
    if d = c then (do detach c; refuse (.unsatisfiable c)) net
    else .error (.refused (.unsatisfiable d)) net
  | result => result

/-- Adds a constraint and satisfies it if it is strong enough. A required constraint that cannot be
satisfied, or one that closes a cycle, is refused and does not stay in the graph. -/
def addConstraint (kind : Kind) (strength : Strength) : Solve ConstraintId := do
  checkVariables kind.operands
  let c ← register kind strength
  let depth ← nesting
  orDetach c (establish depth c)
  return c

end ConstraintHierarchy.Network
