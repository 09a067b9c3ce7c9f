import ConstraintHierarchy.Diagnostic.Report
import ConstraintHierarchy.Script.Session

/-!
# What reports say about scripts
-/

namespace ConstraintHierarchy.Script

/-- A parse error points at the text that does not fit and lists what would. -/
def ParseError.diagnostic (e : ParseError) : Diagnostic :=
  let expected := if e.expected.isEmpty then "" else "\nExpected: " ++ ", ".intercalate e.expected
  { message := e.message, first := ⟨e.span, e.message ++ expected, .red⟩ }

namespace ScriptError

/-- What the label on the offending text says. -/
def labelMessage : ScriptError → String
  | undefined _ _ => "not declared with 'var'"
  | redefined _ _ => "redefined here"
  | unexpectedValue _ _ actual _ => "value is " ++ Decimal.plain.write actual
  | solver e _ => e.message

/-- A second place worth looking at. -/
def otherLabels : ScriptError → List Label
  | redefined _ previous => [⟨previous, "first defined here", .blue⟩]
  | _ => []

/-- What to try instead. -/
def help : ScriptError → Option String
  | undefined _ suggestions =>
    if suggestions.isEmpty then none
    else some ("did you mean " ++ ", ".intercalate suggestions ++ "?")
  | _ => none

def note : ScriptError → Option String
  | solver e _ => if e.isRolledBack then some "the statement was not applied" else none
  | _ => none

def diagnostic (e : ScriptError) : Diagnostic :=
  { message := e.message
    first := ⟨e.span, e.labelMessage, .red⟩
    others := e.otherLabels
    help := e.help
    note := e.note }

end ScriptError

def RunError.diagnostic : RunError → Diagnostic
  | parse e => e.diagnostic
  | script e => e.diagnostic

end ConstraintHierarchy.Script
