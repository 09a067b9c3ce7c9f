import ConstraintHierarchy.CommandLine.Program

/-!
# Command line
-/

namespace ConstraintHierarchy.CommandLine

/-- The text of some bytes. -/
def decodeText (bytes : ByteArray) : Except ReadError String :=
  match String.fromUTF8? bytes with
  | some s => .ok s
  | none => .error .invalidText

/-- Reads a file as text. -/
def readTextFile (name : String) : IO (Except ReadError String) := do
  try
    return decodeText (← IO.FS.readBinFile name)
  catch e =>
    match e with
    | .noFileOrDirectory .. => return .error .notFound
    | .inappropriateType .. => return .error .isDirectory
    | .permissionDenied .. => return .error .denied
    | e => return .error (.other e.toString)

/-- Reads the standard input to its end. -/
def readStandardInput : IO (Except ReadError String) := do
  return decodeText (← (← IO.getStdin).readBinToEnd)

end ConstraintHierarchy.CommandLine

open ConstraintHierarchy.CommandLine in
def main (args : List String) : IO UInt32 := do
  let outcome ← run readTextFile readStandardInput args
  IO.print outcome.stdout
  IO.eprint outcome.stderr
  return outcome.code.toUInt32
