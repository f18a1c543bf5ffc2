import TypeFlow.CommandLine.Run

/-!
# The program
-/

namespace TypeFlow

/-- What is wrong with a file, in the system's words and with its number. -/
def fileProblem : IO.Error → String
  | .noFileOrDirectory _ code _ => s!"No such file or directory (os error {code})"
  | .permissionDenied _ code _ => s!"Permission denied (os error {code})"
  | .inappropriateType _ 20 _ => "Not a directory (os error 20)"
  | .inappropriateType _ code _ => s!"Is a directory (os error {code})"
  | e => toString e

/-- The files and the clock of the system. -/
def systemHost : Host IO where
  contents path := do
    try
      match String.fromUTF8? (← IO.FS.readBinFile path) with
      | some text => return .ok text
      | none => return .error "stream did not contain valid UTF-8"
    catch e => return .error (fileProblem e)
  now := IO.monoNanosNow

/-- Whether the surroundings ask for colors. -/
def wantsColor : IO Bool := do
  let forced ← IO.getEnv "CLICOLOR_FORCE"
  if forced.isSome && forced != some "0" then return true
  if (← IO.getEnv "NO_COLOR").isSome then return false
  if (← IO.getEnv "CLICOLOR") == some "0" then return false
  (← IO.getStdout).isTty

end TypeFlow

def main (args : List String) : IO UInt32 := do
  let outcome ← TypeFlow.CommandLine.run TypeFlow.systemHost (← TypeFlow.wantsColor) args
  IO.print outcome.output
  IO.eprint outcome.errors
  return outcome.code.toUInt32
