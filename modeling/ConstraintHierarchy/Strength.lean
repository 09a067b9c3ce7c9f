/-!
# Strengths

A constraint hierarchy ranks its constraints by strength. `required` constraints must hold; the
others are held as far as stronger ones leave room, down to `weakest`, which is also the strength of
a variable that no constraint computes.
-/

namespace ConstraintHierarchy

/-- How much a constraint is wanted, strongest level first. -/
inductive Strength where
  | required
  | strongPreferred
  | preferred
  | strongDefault
  | normal
  | weakDefault
  | weakest
  deriving DecidableEq, Inhabited

namespace Strength

/-- Every level, strongest first. -/
def all : List Strength :=
  [required, strongPreferred, preferred, strongDefault, normal, weakDefault, weakest]

/-- Position in the hierarchy: `0` for `required`, `6` for `weakest`. -/
def rank : Strength → Nat
  | required => 0
  | strongPreferred => 1
  | preferred => 2
  | strongDefault => 3
  | normal => 4
  | weakDefault => 5
  | weakest => 6

/-- The spelling of a level in scripts, settings and messages. -/
def name : Strength → String
  | required => "required"
  | strongPreferred => "strong_preferred"
  | preferred => "preferred"
  | strongDefault => "strong_default"
  | normal => "normal"
  | weakDefault => "weak_default"
  | weakest => "weakest"

/-- `a` takes precedence over `b`; no level takes precedence over itself. -/
def StrongerThan (a b : Strength) : Prop := a.rank < b.rank

instance (a b : Strength) : Decidable (a.StrongerThan b) := inferInstanceAs (Decidable (_ < _))

/-- The weaker of two levels. -/
def weakerOf (a b : Strength) : Strength := if b.StrongerThan a then a else b

/-- The stronger of two levels. -/
def strongerOf (a b : Strength) : Strength := if a.StrongerThan b then a else b

/-- The level directly below, if there is one. -/
def next? : Strength → Option Strength
  | required => some strongPreferred
  | strongPreferred => some preferred
  | preferred => some strongDefault
  | strongDefault => some normal
  | normal => some weakDefault
  | weakDefault => some weakest
  | weakest => none

/-- The level with the given spelling. -/
def ofName? (s : String) : Option Strength := all.find? (·.name == s)

theorem mem_all (s : Strength) : s ∈ all := by cases s <;> decide

theorem rank_injective {a b : Strength} (h : a.rank = b.rank) : a = b := by
  cases a <;> cases b <;> simp_all [rank]

theorem rank_le_six (s : Strength) : s.rank ≤ 6 := by cases s <;> decide

theorem ofName?_name (s : Strength) : ofName? s.name = some s := by cases s <;> decide

theorem name_of_ofName? {n : String} {s : Strength} (h : ofName? n = some s) : s.name = n := by
  have := List.find?_some h
  simpa using this

@[simp] theorem rank_weakerOf (a b : Strength) : (a.weakerOf b).rank = max a.rank b.rank := by
  cases a <;> cases b <;> rfl

@[simp] theorem rank_strongerOf (a b : Strength) : (a.strongerOf b).rank = min a.rank b.rank := by
  cases a <;> cases b <;> rfl

theorem rank_of_next? {a b : Strength} (h : a.next? = some b) : b.rank = a.rank + 1 := by
  cases a <;> simp only [next?, Option.some.injEq, reduceCtorEq] at h <;> subst h <;> rfl

end Strength

/-- A word was found where the name of a strength is needed. -/
structure UnknownStrength where
  /-- the word found -/
  found : String
  deriving DecidableEq

namespace UnknownStrength

/-- The names that would have been accepted. -/
def expected : String := ", ".intercalate (Strength.all.map Strength.name)

def message (e : UnknownStrength) : String :=
  "unknown strength '" ++ e.found ++ "' (expected one of: " ++ expected ++ ")"

end UnknownStrength

/-- The level with the given spelling, or a complaint that names the accepted ones. -/
def Strength.parse (s : String) : Except UnknownStrength Strength :=
  match ofName? s with
  | some level => .ok level
  | none => .error ⟨s⟩

end ConstraintHierarchy
