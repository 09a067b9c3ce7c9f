import ConstraintHierarchy.Strength
import ConstraintHierarchy.Script.Token

/-!
# Statements of scripts
-/

namespace ConstraintHierarchy.Script

/-- A variable as a script mentions it. -/
abbrev Name := Located String

/-- One instruction of a script. -/
inductive Statement where
  /-- `var name = value` -/
  | declare (name : Name) (value : Float)
  /-- `stay name strength` -/
  | stay (name : Name) (strength : Strength)
  /-- `edit name strength` -/
  | edit (name : Name) (strength : Strength)
  /-- `equal left right strength` -/
  | equal (left right : Name) (strength : Strength)
  /-- `scale source factor offset target strength` -/
  | scale (source factor offset target : Name) (strength : Strength)
  /-- `change name = value` -/
  | change (name : Name) (value : Float)
  /-- `expect name = value` -/
  | expect (name : Name) (value : Float)
  /-- `print name` -/
  | print (name : Name)

namespace Statement

/-- The word that starts the statement. -/
def keyword : Statement → Keyword
  | declare _ _ => .var
  | stay _ _ => .stay
  | edit _ _ => .edit
  | equal _ _ _ => .equal
  | scale _ _ _ _ _ => .scale
  | change _ _ => .change
  | expect _ _ => .expect
  | print _ => .print

/-- The variables mentioned, in the order they are written. -/
def names : Statement → List Name
  | declare n _ => [n]
  | stay n _ => [n]
  | edit n _ => [n]
  | equal l r _ => [l, r]
  | scale s f o t _ => [s, f, o, t]
  | change n _ => [n]
  | expect n _ => [n]
  | print n => [n]

def value? : Statement → Option Float
  | declare _ x => some x
  | change _ x => some x
  | expect _ x => some x
  | _ => none

def strength? : Statement → Option Strength
  | stay _ s => some s
  | edit _ s => some s
  | equal _ _ s => some s
  | scale _ _ _ _ s => some s
  | _ => none

end Statement

end ConstraintHierarchy.Script
