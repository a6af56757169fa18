import CueFlow.Inspect
/-!
# The command line

`inspect` reads the files that it is given, prints its report as JSON, and exits with 0; a failure
is printed to standard error and exits with 1, and a command line that asks for nothing with 2.
-/

open CueFlow

/-- Why a file could not be read. Opening a file fails with its name, reading a folder without. -/
def readFault : IO.Error → ReadFault
  | .permissionDenied .. => .denied
  | .inappropriateType (some _) .. => .notFolder
  | .inappropriateType none .. => .isFolder
  | .invalidArgument .. => .nameTooLong
  | _ => .missing

/-- The text of a file. -/
def readText (path : String) : IO (Except ReadFault String) := do
  try return .ok (← IO.FS.readFile path)
  catch e => return .error (readFault e)

/-- Carry out a request and print the outcome. -/
def runRequest (r : InspectRequest) : IO UInt32 := do
  let files ← r.paths.mapM fun path ↦ return (path, ← readText path)
  match r.run fun path ↦ (files.lookup path).getD (.error .missing) with
  | .ok report =>
    IO.println report.indented
    return 0
  | .error e =>
    IO.eprintln e.message
    if let some cause := e.cause? then IO.eprintln ("Caused by: " ++ cause)
    return 1

def main (arguments : List String) : IO UInt32 := do
  match Invocation.ofArguments? arguments with
  | some (.inspect r) => runRequest r
  | some .help =>
    IO.println Invocation.usage
    return 0
  | none =>
    IO.eprintln Invocation.usage
    return 2
