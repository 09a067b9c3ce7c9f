import ConstraintHierarchy.Text.Place

/-!
# Diagnostics

A diagnostic is a message about a source text with labels on parts of it.
-/

namespace ConstraintHierarchy

/-- Terminal colours. -/
inductive Ink where
  | red
  | blue
  /-- frame and line numbers -/
  | frame
  /-- the frame next to lines without a number -/
  | faintFrame
  /-- source text without a label -/
  | source
  /-- the words `Help` and `Note` -/
  | remark
  deriving DecidableEq

def Ink.code : Ink → String
  | red => "31"
  | blue => "34"
  | frame => "38;5;246"
  | faintFrame => "38;5;240"
  | source => "38;5;249"
  | remark => "38;5;115"

/-- The text in the given colour, followed by a return to the default. -/
def Ink.paint (ink : Ink) (text : String) : String :=
  "\x1b[" ++ ink.code ++ "m" ++ text ++ "\x1b[0m"

/-- A remark on part of a source text. -/
structure Label where
  span : Span
  message : String
  ink : Ink := .red

/-- A message about a source text. The first label says where the problem is. -/
structure Diagnostic where
  message : String
  first : Label
  others : List Label := []
  help : Option String := none
  note : Option String := none

def Diagnostic.labels (d : Diagnostic) : List Label := d.first :: d.others

end ConstraintHierarchy
