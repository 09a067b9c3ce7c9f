import ConstraintHierarchy.Strength

/-!
# Settings

What can be set for scripts and for the two scenarios, with the values that hold when nothing is
said.
-/

namespace ConstraintHierarchy

/-- How a script carries out `change`. -/
structure ScriptSettings where
  editStrength : Strength := .preferred
  changeIterations : Nat := 10
  deriving DecidableEq, Inhabited

/-- Size and strengths of the chain scenario. -/
structure ChainSettings where
  length : Nat := 100
  stayStrength : Strength := .strongDefault
  editStrength : Strength := .preferred
  iterations : Nat := 100
  deriving DecidableEq, Inhabited

/-- Size, mapping and strengths of the projection scenario. -/
structure ProjectionSettings where
  size : Nat := 100
  scale : Float := 10.0
  offset : Float := 1000.0
  stayStrength : Strength := .normal
  editStrength : Strength := .preferred
  changeIterations : Nat := 10
  deriving Inhabited

structure Settings where
  script : ScriptSettings := {}
  chain : ChainSettings := {}
  projection : ProjectionSettings := {}
  deriving Inhabited

namespace Settings

/-- Nothing is set. -/
def initial : Settings := {}

def withEditStrength (s : Settings) (strength : Strength) : Settings :=
  { s with script := { s.script with editStrength := strength } }

def withChangeIterations (s : Settings) (n : Nat) : Settings :=
  { s with script := { s.script with changeIterations := n } }

def withChainLength (s : Settings) (n : Nat) : Settings :=
  { s with chain := { s.chain with length := n } }

def withProjectionSize (s : Settings) (n : Nat) : Settings :=
  { s with projection := { s.projection with size := n } }

/-- The settings say what holds anyway. Numbers are compared as numbers, so one that is not a number
never agrees. -/
def isInitial (s : Settings) : Bool :=
  s.script = initial.script && s.chain = initial.chain &&
    s.projection.size == initial.projection.size &&
    s.projection.scale == initial.projection.scale &&
    s.projection.offset == initial.projection.offset &&
    s.projection.stayStrength = initial.projection.stayStrength &&
    s.projection.editStrength = initial.projection.editStrength &&
    s.projection.changeIterations == initial.projection.changeIterations

end Settings

end ConstraintHierarchy
