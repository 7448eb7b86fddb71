import ScopeIR.Inspect

/-! The program around the command line. -/

namespace ScopeIR.Program

def readFile (path : String) : IO Reading := do
  match ← (IO.FS.Handle.mk path .read).toBaseIO with
  | .error (.noFileOrDirectory ..) => return .missing
  | .error (.permissionDenied _ code _) =>
    return .notOpened s!"Permission denied (os error {code})"
  | .error e => return .notOpened (toString e)
  | .ok handle =>
    match ← handle.readBinToEnd.toBaseIO with
    | .error (.inappropriateType ..) => return .directory
    | .error e => return .notRead (toString e)
    | .ok bytes => return .bytes bytes.toList

/-- Colours are used on a terminal, or where the environment forces them. -/
def isColoured : IO Bool := do
  let isOn (value : String) : Bool := value ≠ "0"
  if (← IO.getEnv "CLICOLOR_FORCE").any isOn then return true
  if (← IO.getEnv "NO_COLOR").isSome then return false
  return ((← IO.getEnv "CLICOLOR").all isOn) && (← (← IO.getStdout).isTty)

end ScopeIR.Program

open ScopeIR Program in
def main (args : List String) : IO UInt32 := do
  match CommandLine.parse args (← IO.getEnv "LOG_LEVEL") with
  | .error e =>
    IO.eprintln s!"error: {e.name}"
    return if e = .helpDisplayed ∨ e = .versionDisplayed then 0 else 1
  | .ok options =>
    let outcome := Inspect.run options (← readFile options.input) (← isColoured)
    IO.print outcome.stdout
    IO.eprint outcome.stderr
    return outcome.code
