import Workflow.CommandLine.Run

/-!
# The command line

Reads the file that the arguments name, and writes what the run leaves.
-/

namespace Workflow.CommandLine

/-- The number of a fault of the surroundings, which some calls give with the other sign. -/
def faultNumber (code : UInt32) : UInt32 := if code < 0x80000000 then code else 0 - code

/-- Why a file cannot be read, by the number of the fault. -/
def readFailure (e : IO.Error) : ReadFailure :=
  match e with
  | .noFileOrDirectory .. => .notFound
  | .inappropriateType _ code _ => if faultNumber code = 20 then .notDirectory else .isDirectory
  | .invalidArgument _ code _ =>
    if faultNumber code = 36 then .nameTooLong else .other (toString e)
  | _ => .other (toString e)

def readContent (file : String) : IO (Except ReadFailure String) := do
  try
    return decode (← IO.FS.readBinFile file)
  catch e => return .error (readFailure e)

end Workflow.CommandLine

open Workflow.CommandLine in
def main (args : List String) : IO UInt32 := do
  let request := read .start args
  let content ← match request.file? with
    | some file => readContent file
    | none => pure (.error .notFound)
  let outcome := request.outcome content
  IO.print outcome.stdout
  IO.eprint outcome.stderr
  return outcome.status.toUInt32
