import Aggregation.Command.Run

/-!
# The program

Reads the standard input when the arguments ask for it, runs, and prints the
outcome.
-/

open Aggregation.Command

/-- Entry point of the program. -/
def main (arguments : List String) : IO UInt32 := do
  let stdin ← IO.getStdin
  let needed := ((Invocation.ofArguments? arguments).map Invocation.readsStandardInput).getD false
  let terminal ← stdin.isTty
  let input ←
    if needed && !terminal then StandardInput.piped <$> stdin.readBinToEnd
    else pure StandardInput.terminal
  let outcome := run arguments input
  (← IO.getStdout).putStr outcome.stdout
  (← IO.getStderr).putStr outcome.stderr
  return outcome.exit
