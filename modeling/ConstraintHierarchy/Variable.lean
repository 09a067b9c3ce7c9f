import ConstraintHierarchy.Strength

/-!
# Variables

A variable carries its value together with the part of the method graph that touches it: the
constraints that mention it, the one that computes it, and the two annotations that propagation
keeps, its walkabout strength and its stay flag.
-/

namespace ConstraintHierarchy

/-- Position of a variable in its network. -/
structure VariableId where
  index : Nat
  deriving DecidableEq, Inhabited

/-- Position of a constraint in its network. -/
structure ConstraintId where
  index : Nat
  deriving DecidableEq, Inhabited

/-- How a variable is called in messages. -/
def VariableId.label (v : VariableId) : String := "v" ++ toString v.index

/-- How a constraint is called in messages. -/
def ConstraintId.label (c : ConstraintId) : String := "c" ++ toString c.index

/-- A constrained variable. -/
structure Variable where
  /-- a name for messages, not a key -/
  name : String
  value : Float
  /-- the constraints that mention the variable, one entry per mention, oldest first -/
  constraints : List ConstraintId := []
  /-- the constraint whose chosen method computes the variable -/
  determinedBy : Option ConstraintId := none
  /-- the last walk that visited the variable -/
  mark : Nat := 0
  /-- the strength a constraint has to exceed to take the variable over -/
  walkStrength : Strength := .weakest
  /-- nothing outside the network can change the value while a plan is replayed -/
  stay : Bool := true
  deriving Inhabited

namespace Variable

/-- Records one more mention by `c`. -/
def attach (x : Variable) (c : ConstraintId) : Variable :=
  { x with constraints := x.constraints ++ [c] }

/-- Removes every trace of `c`. -/
def detach (x : Variable) (c : ConstraintId) : Variable :=
  { x with
    constraints := x.constraints.filter (· ≠ c)
    determinedBy := if x.determinedBy = some c then none else x.determinedBy }

/-- The variable as if no constraint had ever computed it. -/
def undetermined (x : Variable) : Variable :=
  { x with determinedBy := none, walkStrength := .weakest, stay := true }

end Variable

end ConstraintHierarchy
