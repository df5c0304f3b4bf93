/-
# The command line

`-c PROGRAM` runs a program given as an argument, and `-f PATH` one in a file.
-/

import Constructions.Run
import Constructions.Text.Width

namespace Constructions

/-- The depth of computation that a run from the command line may reach. -/
def commandLineFuel : Nat := 1000000000

/-- Runs a source, and writes what it shows. -/
def runAndPrint (source : String) : IO UInt32 := do
  match runSource Text.width commandLineFuel source with
  | .ok report => do
    (← IO.getStdout).putStr report.output
    (← IO.getStderr).putStr report.errors
    return report.exitCode.toUInt32
  | .error (.violation v) => do
    (← IO.getStderr).putStrLn v.message
    return 101
  | .error .dangling => do
    (← IO.getStderr).putStrLn "a reference leads nowhere"
    return 101
  | .error .overflow => do
    (← IO.getStderr).putStrLn "a number is too large"
    return 101
  | .error .exhausted => do
    (← IO.getStderr).putStrLn "the computation is too deep"
    return 101

end Constructions

def main (arguments : List String) : IO UInt32 := do
  match arguments with
  | ["-c", source] => Constructions.runAndPrint source
  | ["-f", path] =>
    try
      let source ← IO.FS.readFile path
      Constructions.runAndPrint source
    catch error => do
      (← IO.getStderr).putStrLn ("error: could not read " ++ path ++ ": " ++ toString error)
      return 1
  | _ => do
    (← IO.getStderr).putStrLn "usage: (-c PROGRAM | -f PATH)"
    return 1
