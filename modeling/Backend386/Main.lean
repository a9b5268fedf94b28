import Backend386.Run

/-!
# The program

Reads its arguments and files, and prints what a run reports.
-/

namespace Backend386

/-- What the operating system says about a failure. -/
def systemMessage : IO.Error → String
  | .noFileOrDirectory .. => "No such file or directory (os error 2)"
  | .permissionDenied .. => "Permission denied (os error 13)"
  | .inappropriateType .. => "Is a directory (os error 21)"
  | e => e.toString

/-- The files of the operating system. -/
def systemFiles : Files IO where
  read path := try return .ok (← IO.FS.readFile path) catch e => return .error (systemMessage e)
  write path text :=
    try return .ok (← IO.FS.writeFile path text) catch e => return .error (systemMessage e)

/-- How the program is called. -/
def usage : String :=
  "usage: backend386 -i FILE [-o FILE] [-f json|yaml] [--emit asm|mir|types]\n" ++
  "                  [-p ilp32|lp64|ilp64|llp64] [--verbose-asm] [--log-level LEVEL]"

/-- The wording of refused arguments. -/
def CommandLine.ArgumentError.message : CommandLine.ArgumentError → String
  | missingRequired => "error: an input file is required"
  | unknownArgument => "error: unknown argument"
  | invalidValue => "error: an option has a value it may not have"
  | emptyValue => "error: an option needs a value"
  | repeated => "error: an option was given more than once"
  | help => "Compiles a resolved program unit into i386 assembly"
  | version => "backend386"

end Backend386

open Backend386

/-- Runs the program. -/
def main (args : List String) : IO UInt32 := do
  match CommandLine.parse args with
  | .error .help =>
    IO.println (CommandLine.ArgumentError.help.message ++ "\n" ++ usage)
    return 0
  | .error .version =>
    IO.println CommandLine.ArgumentError.version.message
    return 0
  | .error e =>
    IO.eprintln (e.message ++ "\n" ++ usage)
    return 1
  | .ok i =>
    let report ← i.run systemFiles
    IO.print report.stdout
    IO.eprint report.stderr
    return report.exitStatus
