import BlockScript.CommandLine.Report

/-!
# The program

Reads the file that the arguments name, and writes what the report says. Where there is none, only
the exit status tells of the crash.
-/

namespace BlockScript.CommandLine

/-- What a failure to read a file means. -/
def fileFailure (path : String) : IO.Error → FileContent
  | .noFileOrDirectory .. => .missing
  | .inappropriateType .. => .isDirectory path
  | e => .unreadable (toString e)

def readFile (path : String) : IO FileContent := do
  try
    return .bytes (← IO.FS.readBinFile path)
  catch e =>
    return fileFailure path e

end BlockScript.CommandLine

open BlockScript BlockScript.CommandLine in
def main (args : List String) : IO UInt32 := do
  let report ← match parseArguments args with
    | .ok options => pure (process plenty options (← readFile options.file))
    | .error report => pure (.ok report)
  match report with
  | .error _ => return 1
  | .ok report =>
    (← IO.getStdout).putStr report.stdout
    (← IO.getStderr).putStr report.stderr
    return report.status.toUInt32
