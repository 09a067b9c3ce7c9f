import ConstraintHierarchy.Decimal.Layout
import ConstraintHierarchy.Network.Basic

/-!
# Log lines

How the journal of a network reads in a log: one line per event, with the level, the part of the
program concerned, a message and the things involved.
-/

namespace ConstraintHierarchy

namespace CommandLine

/-- Numbers in a log show a point, and very large or small ones an exponent. -/
def loggedNumber : Decimal.Layout := ⟨fun e => -5 < e && e < 16, true⟩

def solverLine (text : String) : String := "DEBUG deltablue::solver::planner: " ++ text

def scriptLine (text : String) : String := "DEBUG deltablue::script::interpreter: " ++ text

def scenarioLine (text : String) : String := "INFO deltablue::scenario: " ++ text

end CommandLine

/-- The line of an event. -/
def Event.logLine : Event → String
  | adding c kind strength =>
    CommandLine.solverLine ("adding constraint constraint=" ++ c.label ++ " kind=\"" ++
      kind.label ++ "\" strength=" ++ strength.name)
  | destroying c => CommandLine.solverLine ("destroying constraint constraint=" ++ c.label)
  | resatisfying c cause =>
    CommandLine.solverLine ("resatisfying overridden constraint constraint=" ++ c.label ++ " by=" ++
      cause.label)
  | rollingBack c meeting =>
    CommandLine.solverLine ("cycle encountered, rolling back constraint=" ++ c.label ++ " at=" ++
      meeting.label)
  | repairing c output candidates =>
    CommandLine.solverLine ("repairing after removal constraint=" ++ c.label ++ " output=" ++
      output.label ++ " candidates=" ++ toString candidates)
  | declaring name value =>
    CommandLine.scriptLine ("declared variable variable=" ++ name ++ " value=" ++
      CommandLine.loggedNumber.write value)
  | startingChain length steps =>
    CommandLine.scenarioLine ("running scenario=\"chain\" length=" ++ toString length ++
      " steps=" ++ toString steps)
  | startingProjection size =>
    CommandLine.scenarioLine ("running scenario=\"projection\" size=" ++ toString size)

/-- The log of a journal. -/
def CommandLine.logText (journal : Array Event) : String :=
  String.join (journal.toList.map (·.logLine ++ "\n"))

end ConstraintHierarchy
