import Reckoner.CommandLine

/-!
# The program at work

The run of the program is a function of its whole input. To prompt before the answer is typed, the
input is read line by line: as long as the run on the lines read so far is starved, what it writes is
shown and one more line is read.
-/

set_option autoImplicit false

namespace Reckoner.CommandLine

/-- Reads through the next newline, or to the end of the input. -/
partial def readLine (input : IO.FS.Stream) (line : Bytes) : IO Bytes := do
  let byte ← input.read 1
  match byte.toList with
  | [] => return line.reverse
  | b :: _ => if b = newline then return (b :: line).reverse else readLine input (b :: line)

/-- Runs on the lines read so far, of whose output the first `shown` characters are written. -/
partial def converse (read : Bytes) (shown : Nat) : IO UInt32 := do
  let report := run read
  let output ← IO.getStdout
  output.putStr (String.ofList (report.output.toList.drop shown))
  output.flush
  if report.starved then
    let line ← readLine (← IO.getStdin) []
    if line ≠ [] then
      return ← converse (read ++ line) report.output.length
  (← IO.getStderr).putStr report.complaint
  return report.exitCode

/-- Asks for an expression, and then for the values that it needs. -/
def interact : IO UInt32 := do
  let output ← IO.getStdout
  output.putStr openingPrompt
  output.flush
  let line ← readLine (← IO.getStdin) []
  converse line openingPrompt.length

end Reckoner.CommandLine

/-- Asks for an expression and writes its value. -/
def main : IO UInt32 :=
  Reckoner.CommandLine.interact
