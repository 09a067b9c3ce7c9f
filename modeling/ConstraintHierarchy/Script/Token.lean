import ConstraintHierarchy.Text.Place

/-!
# Tokens of scripts

The vocabulary of the script language.
-/

namespace ConstraintHierarchy.Script

/-- The reserved words; each one starts a kind of statement. -/
inductive Keyword where
  | var
  | stay
  | edit
  | equal
  | scale
  | change
  | expect
  | print
  deriving DecidableEq

namespace Keyword

def all : List Keyword := [var, stay, edit, equal, scale, change, expect, print]

def text : Keyword → String
  | var => "var"
  | stay => "stay"
  | edit => "edit"
  | equal => "equal"
  | scale => "scale"
  | change => "change"
  | expect => "expect"
  | print => "print"

/-- The reserved word with the given spelling. -/
def ofText? (s : String) : Option Keyword := all.find? (·.text == s)

theorem mem_all (k : Keyword) : k ∈ all := by cases k <;> decide

end Keyword

/-- What a piece of source text means to the grammar. -/
inductive Token where
  | keyword (k : Keyword)
  | equals
  | identifier (name : String)
  | number (value : Float)
  /-- a character that starts no token -/
  | unrecognized

end ConstraintHierarchy.Script
