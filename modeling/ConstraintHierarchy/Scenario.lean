import ConstraintHierarchy.Decimal.Layout
import ConstraintHierarchy.Network.Plan
import ConstraintHierarchy.Settings.Basic

/-!
# Scenarios

Two networks of any size whose values are known in advance. Running one exercises adding, planning,
replaying and retracting, and compares the values that come out.

* The chain scenario joins variables by required equalities, edits the first one and expects every
  value at the last one.
* The projection scenario maps a row of sources to a row of targets through a shared scale and
  offset, and changes a source, a target, the scale and the offset.

Lists are taken to be as long as they have to be, with one exception. The projection scenario makes room
for all of its pairs in advance, so that a number in the settings is enough to break it down; it is
given up before the first pair if a list that the pairs need would be too large.
-/

namespace ConstraintHierarchy

/-- Why a scenario fails. -/
inductive ScenarioError where
  | solver (e : SolveError)
  /-- a value is not the expected one -/
  | mismatch (scenario place : String) (expected actual : Float)

def ScenarioError.message : ScenarioError → String
  | solver e => "solver error: " ++ e.message
  | mismatch scenario place expected actual =>
    scenario ++ " check failed: " ++ place ++ " is " ++ Decimal.plain.write actual ++
      ", expected " ++ Decimal.plain.write expected

/-- What a scenario did. -/
structure ScenarioReport where
  scenario : String
  variableCount : Nat
  constraintCount : Nat
  /-- how many values were compared -/
  checks : Nat
  deriving DecidableEq

def ScenarioReport.text (r : ScenarioReport) : String :=
  r.scenario ++ ": " ++ toString r.variableCount ++ " variables, " ++ toString r.constraintCount ++
    " constraints, " ++ toString r.checks ++ " checks passed"

/-- A step of a scenario. -/
abbrev Scenario := EStateM (Failure ScenarioError) Network

namespace Scenario

/-- A step that only the solver can refuse. -/
def solve {α : Type} (act : Solve α) : Scenario α := fun net =>
  match act net with
  | .ok a net => .ok a net
  | .error f net => .error (f.map .solver) net

/-- Compares the value of `v` with the expected one. -/
def check (scenario : String) (v : VariableId) (expected : Float) : Scenario Unit := do
  let x ← solve (Solve.readVariable v)
  if x.value == expected then pure ()
  else throw (.refused (.mismatch scenario x.name expected x.value))

/-! ## Chain -/

/-- Appends `n` variables to the chain that ends in `last`, the next of them with number `i`.
Answers the new last variable. -/
def extendChain (last : VariableId) (i : Nat) : Nat → Scenario VariableId
  | 0 => pure last
  | n + 1 => do
    let v ← solve (Network.addVariable ("v" ++ toString i) 0.0)
    let _ ← solve (Network.addConstraint (.equal last v) .required)
    extendChain v (i + 1) n

/-- Sends the numbers from `i` on, `n` of them, down the chain. -/
def feedChain (plan : Plan) (first last : VariableId) (i : Nat) : Nat → Scenario Unit
  | 0 => pure ()
  | n + 1 => do
    solve (Network.assign first (Float.ofNat i))
    solve (Network.runPlan plan)
    check "chain" last (Float.ofNat i)
    feedChain plan first last (i + 1) n

/-- Required equalities in a row, a stay on the last variable and an edit on the first. -/
def chain (settings : ChainSettings) : Scenario ScenarioReport := do
  let first ← solve (Network.addVariable "v0" 0.0)
  let last ← extendChain first 1 settings.length
  let _ ← solve (Network.addConstraint (.stay last) settings.stayStrength)
  let edit ← solve (Network.addConstraint (.edit first) settings.editStrength)
  let plan ← solve (Network.extractPlan [edit])
  solve (Solve.note (.startingChain settings.length plan.steps.length))
  feedChain plan first last 0 settings.iterations
  return ⟨"chain", settings.length + 1, settings.length + 2, settings.iterations⟩

/-! ## Projection -/

/-- A source and the target it is mapped to. -/
structure Pair where
  source : VariableId
  target : VariableId

/-- Adds `n` pairs, the next of them with number `i`. -/
def addPairs (settings : ProjectionSettings) (scale offset : VariableId) (i : Nat) :
    Nat → Scenario (List Pair)
  | 0 => pure []
  | n + 1 => do
    let source ← solve (Network.addVariable ("src" ++ toString i) (Float.ofNat i))
    let target ← solve (Network.addVariable ("dst" ++ toString i) (Float.ofNat i))
    let _ ← solve (Network.addConstraint (.stay source) settings.stayStrength)
    let _ ← solve (Network.addConstraint (.scale source target scale offset) .required)
    let rest ← addPairs settings scale offset (i + 1) n
    pure (⟨source, target⟩ :: rest)

/-- Compares the targets, the first of which belongs to source value `i`, with their images. -/
def checkTargets (scale offset : Float) (i : Nat) : List Pair → Scenario Unit
  | [] => pure ()
  | p :: ps => do
    check "projection" p.target (Float.ofNat i * scale + offset)
    checkTargets scale offset (i + 1) ps

/-- Changes a variable in the way the settings say. -/
def changeTo (settings : ProjectionSettings) (v : VariableId) (value : Float) : Scenario Unit :=
  solve (Network.change v value settings.editStrength settings.changeIterations)

/-- Changes both ends of a pair in turn and compares the other one. -/
def checkBothWays (settings : ProjectionSettings) : Option Pair → Scenario Nat
  | none => pure 0
  | some p => do
    changeTo settings p.source 17.0
    check "projection" p.target (17.0 * settings.scale + settings.offset)
    changeTo settings p.target (5.0 * settings.scale + settings.offset)
    check "projection" p.source 5.0
    pure 2

/-- So many bytes, `2 ^ 63 - 1` of them, a list may take up. -/
def maxBytes : Nat := 9223372036854775807

/-- How many places a list has that was given `count` entries one by one. It starts with four places,
and when there is none left their number doubles. -/
def placesFor (count : Nat) : Nat := max 4 (Nat.pow 2 ((count - 1).log2 + 1))

/-- The lists that grow with the number of pairs: the bytes that an entry takes up, and the places. -/
def pairLists (size : Nat) : List (Nat × Nat) :=
  -- the pairs themselves, for all of which room is made in advance
  (16, size) ::
  -- the variables of the network
  (88, placesFor (2 + 2 * size)) ::
  -- the constraints of the network; an edit that is gone still has its place
  (48, placesFor (2 * size + 4)) ::
  -- the constraints on the scale, and those on the offset
  (8, placesFor (size + 1)) :: []

/-- No list that the pairs need is too large. -/
def hasRoom (size : Nat) : Bool := (pairLists size).all fun l => l.1 * l.2 ≤ maxBytes

/-- Pairs that share a scale and an offset; the last pair is changed at both ends, the others are
compared after the scale and the offset are changed. -/
def projection (settings : ProjectionSettings) : Scenario ScenarioReport := do
  let scale ← solve (Network.addVariable "scale" settings.scale)
  let offset ← solve (Network.addVariable "offset" settings.offset)
  if hasRoom settings.size = false then throw .outOfRange
  let pairs ← addPairs settings scale offset 0 settings.size
  solve (Solve.note (.startingProjection settings.size))
  let checks ← checkBothWays settings pairs.getLast?
  let untouched := pairs.dropLast
  changeTo settings scale (settings.scale / 2.0)
  checkTargets (settings.scale / 2.0) settings.offset 0 untouched
  changeTo settings offset (settings.offset * 2.0)
  checkTargets (settings.scale / 2.0) (settings.offset * 2.0) 0 untouched
  return ⟨"projection", 2 + 2 * settings.size, 2 * settings.size, checks + 2 * untouched.length⟩

end Scenario

end ConstraintHierarchy
