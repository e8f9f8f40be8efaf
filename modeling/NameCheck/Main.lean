import NameCheck.CommandLine

/-!
# The program

Reads the file that the command line names, and writes what the run leaves.
-/

namespace NameCheck

/-- The content of a file. -/
def readSource (file : String) : IO (Except ReadFailure String) := do
  try
    let bytes ← IO.FS.readBinFile file
    return match String.fromUTF8? bytes with
      | some source => .ok source
      | none => .error .notUtf8
  catch
    | .noFileOrDirectory .. => return .error .notFound
    | .inappropriateType _ 20 _ => return .error .notDirectory
    | .inappropriateType .. => return .error .isDirectory
    | error => return .error (.other (toString error))

/-- What the command line leaves. -/
def runArgs (args : List String) : IO CommandLine.Result := do
  match CommandLine.Request.ofArgs args with
  | .error ending => return ending.result
  | .ok request =>
    let settings : CommandLine.ColorSettings :=
      { force := ← IO.getEnv "CLICOLOR_FORCE", noColor := ← IO.getEnv "NO_COLOR",
        preferred := ← IO.getEnv "CLICOLOR", terminal := ← (← IO.getStdout).isTty }
    return CommandLine.run request settings (← readSource request.file)

/-- Runs the command line and writes what it leaves. -/
def runMain (args : List String) : IO UInt32 := do
  let result ← runArgs args
  IO.print result.stdout
  IO.eprint result.stderr
  return result.exit.toUInt32

end NameCheck

def main (args : List String) : IO UInt32 :=
  NameCheck.runMain args
