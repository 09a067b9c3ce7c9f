import ConstraintHierarchy.Variable

/-!
# Constraints

A constraint relates one, two or four variables and has at most two methods, one per direction. The
chosen method, if any, says which variable the constraint computes and which ones it reads. The
choice rule and the annotations of a computed variable are functions of the variables involved; how
they move through a network is the subject of `ConstraintHierarchy.Network`.
-/

namespace ConstraintHierarchy

/-- What a constraint says about its variables. -/
inductive Kind where
  /-- `v` keeps its value -/
  | stay (v : VariableId)
  /-- `v` is assigned from outside the network -/
  | edit (v : VariableId)
  /-- `a = b` -/
  | equal (a b : VariableId)
  /-- `b = a * factor + offset`; `factor` and `offset` are only read -/
  | scale (a b factor offset : VariableId)
  deriving DecidableEq

/-- Direction of a method: `forward` computes the second variable from the first. A unary constraint
only flows forward, into its variable. -/
inductive Flow where
  | forward
  | backward
  deriving DecidableEq

/-- A constraint with its strength and its place in the current solution. -/
structure Constraint where
  kind : Kind
  strength : Strength
  /-- the chosen method; `none` while the constraint is unsatisfied -/
  flow : Option Flow := none
  /-- the variables of the constraint know about it -/
  attached : Bool := false
  deriving DecidableEq

namespace Kind

/-- The word for a kind in scripts and logs. -/
def label : Kind → String
  | stay _ => "stay"
  | edit _ => "edit"
  | equal _ _ => "equal"
  | scale _ _ _ _ => "scale"

/-- Every variable mentioned, with repetitions. -/
def operands : Kind → List VariableId
  | stay v => [v]
  | edit v => [v]
  | equal a b => [a, b]
  | scale a b factor offset => [a, b, factor, offset]

/-- The variables that some method of the constraint can compute. -/
def outputs : Kind → List VariableId
  | stay v => [v]
  | edit v => [v]
  | equal a b => [a, b]
  | scale a b _ _ => [a, b]

/-- The variables that a constraint reads whichever way it flows. -/
def parameters : Kind → List VariableId
  | scale _ _ factor offset => [factor, offset]
  | _ => []

/-- The variable computed under `flow`; while unsatisfied, a binary constraint names its first. -/
def output (k : Kind) (flow : Option Flow) : VariableId :=
  match k, flow with
  | stay v, _ => v
  | edit v, _ => v
  | equal _ b, some .forward => b
  | equal a _, _ => a
  | scale _ b _ _, some .forward => b
  | scale a _ _ _, _ => a

/-- The variable at the other end of a binary constraint; a unary constraint has none. -/
def input (k : Kind) (flow : Option Flow) : Option VariableId :=
  match k, flow with
  | stay _, _ => none
  | edit _, _ => none
  | equal a _, some .forward => some a
  | equal _ b, _ => some b
  | scale a _ _ _, some .forward => some a
  | scale _ b _ _, _ => some b

/-- An input constraint depends on something outside the network. -/
def isInput : Kind → Bool
  | edit _ => true
  | _ => false

end Kind

namespace Constraint

/-- A constraint is satisfied when a method is chosen for it. -/
def isSatisfied (k : Constraint) : Bool := k.flow.isSome

def isInput (k : Constraint) : Bool := k.kind.isInput

def output (k : Constraint) : VariableId := k.kind.output k.flow

def input (k : Constraint) : Option VariableId := k.kind.input k.flow

/-- Every variable whose value the chosen method reads. -/
def reads (k : Constraint) : List VariableId := k.input.toList ++ k.kind.parameters

end Constraint

/-! ## Choosing a method -/

/-- A variable that the current walk has not visited can be taken over by a stronger constraint. -/
def Variable.Yields (x : Variable) (mark : Nat) (s : Strength) : Prop :=
  x.mark ≠ mark ∧ s.StrongerThan x.walkStrength

instance (x : Variable) (mark : Nat) (s : Strength) : Decidable (x.Yields mark s) :=
  inferInstanceAs (Decidable (_ ∧ _))

/-- The method of a unary constraint of strength `s` on `x`. -/
def unaryFlow (s : Strength) (mark : Nat) (x : Variable) : Option Flow :=
  if x.Yields mark s then some .forward else none

/-- The method of a binary constraint of strength `s` between `x` and `y`. An end that the walk has
visited stays an input; otherwise the weaker end is computed, the second one on a tie. -/
def binaryFlow (s : Strength) (mark : Nat) (x y : Variable) : Option Flow :=
  if x.mark = mark then
    if y.Yields mark s then some .forward else none
  else if y.mark = mark then
    if x.Yields mark s then some .backward else none
  else if y.walkStrength.StrongerThan x.walkStrength then
    if x.Yields mark s then some .backward else none
  else
    if y.Yields mark s then some .forward else none

/-! ## Annotations of a computed variable -/

/-- What propagation knows about a computed variable. -/
structure Annotation where
  walkStrength : Strength
  stay : Bool
  deriving DecidableEq

def Variable.annotate (x : Variable) (a : Annotation) : Variable :=
  { x with walkStrength := a.walkStrength, stay := a.stay }

/-- The output of a constraint is as easy to override as the weaker of the constraint and its input,
and it stays if everything read stays. A unary constraint reads nothing; an edit never stays. -/
def Constraint.annotation (k : Constraint) (input : Option Variable) (parameters : List Variable) :
    Annotation :=
  match input with
  | none => ⟨k.strength, !k.isInput⟩
  | some x => ⟨k.strength.weakerOf x.walkStrength, x.stay && parameters.all (·.stay)⟩

end ConstraintHierarchy
