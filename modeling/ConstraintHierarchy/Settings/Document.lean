import ConstraintHierarchy.Settings.Decode
import ConstraintHierarchy.Toml.Document

/-!
# Settings from documents

The text of a settings file is a TOML document. A document that does not fit is reported with the
line it goes wrong on.
-/

namespace ConstraintHierarchy.Settings

/-- Why a text gives no settings. -/
inductive DocumentError where
  /-- the text is no TOML document -/
  | malformed
  /-- an entry of the document does not fit -/
  | misfit (m : Misfit) (source : String)

/-- The characters in the first `n` bytes of a text, and the others. -/
def splitAtByte : Nat → List Char → List Char × List Char
  | _, [] => ([], [])
  | n, c :: cs =>
    if n < c.utf8Size then ([], c :: cs)
    else
      let (before, after) := splitAtByte (n - c.utf8Size) cs
      (c :: before, after)

private def blankSpace (n : Nat) : String := String.ofList (List.replicate n ' ')

/-- The line that a range of text starts on, with the range underlined as far as the line could
reach. -/
def excerpt (source : String) (span : Span) : String :=
  let (before, after) := splitAtByte span.start source.toList
  let lead := (before.reverse.takeWhile (· ≠ '\n')).reverse
  let content := lead ++ after.takeWhile (· ≠ '\n')
  let number := toString (before.count '\n' + 1)
  let width := min (span.stop - span.start) (byteLength content)
  "TOML parse error at line " ++ number ++ ", column " ++ toString (lead.length + 1) ++ "\n" ++
    blankSpace (number.length + 1) ++ "|\n" ++
    number ++ " | " ++ String.ofList content ++ "\n" ++
    blankSpace (number.length + 1) ++ "|" ++ blankSpace (lead.length + 1) ++
    String.ofList (List.replicate (max width 1) '^') ++ "\n"

def DocumentError.message : DocumentError → String
  | malformed => "Failed to parse config TOML: TOML parse error\n"
  | misfit m source =>
    let place := match m.span with
      | some span => excerpt source span
      | none => ""
    "Failed to parse config TOML: " ++ place ++ m.reason.message ++ "\n"

/-- The settings that a text makes. -/
def parse (source : String) : Except DocumentError Settings :=
  match Toml.parse? source with
  | none => .error .malformed
  | some entries =>
    match decode entries with
    | .ok s => .ok s
    | .error m => .error (.misfit m source)

end ConstraintHierarchy.Settings
