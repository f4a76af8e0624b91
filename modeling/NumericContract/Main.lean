import NumericContract.CommandLine

/-!
# The program

Reads the file that the command line names and the environment, and prints the answer.
-/

namespace NumericContract.CommandLine

def readFile? (path : String) : IO (Option String) := do
  try
    return some (← IO.FS.readFile path)
  catch _ => return none

end NumericContract.CommandLine

open NumericContract CommandLine

def main (arguments : List String) : IO UInt32 := do
  let request := Request.ofArguments arguments
  let text? ← match request with
    | .report path _ => readFile? path
    | _ => pure none
  let precision? ← IO.getEnv precisionVariable
  let scanSteps? ← IO.getEnv scanStepsVariable
  let environment := fun name =>
    if name = precisionVariable then precision?
    else if name = scanStepsVariable then scanSteps?
    else none
  match request.answer .standard LoadFault.text text? environment with
  | .ok answer =>
      (← IO.getStdout).putStr answer.output
      unless answer.error.isEmpty do IO.eprintln answer.error
      return answer.exit
  | .error failure =>
      IO.eprintln failure.message
      return 1
