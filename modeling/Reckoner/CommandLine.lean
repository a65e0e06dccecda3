import Reckoner.Calculator
import Reckoner.Decimal.Writing
import Reckoner.Supply.Console

/-!
# The program

The first line of the input is the expression; the lines after it are the answers to the requests for
values. The program writes its prompts and the result; if there is none it writes why, with every
cause on a line of its own, and ends with a code that says so.
-/

set_option autoImplicit false

namespace Reckoner.CommandLine

/-- What a run of the program writes and how it ends. It is `starved` if it failed because the input
    had ended when a value was asked for. -/
structure Report where
  output : String
  complaint : String
  exitCode : UInt32
  starved : Bool
  deriving DecidableEq, Repr

/-- What is written before the expression is read. -/
def openingPrompt : String := "Enter expression: "

/-- The expression on a line: the line without the carriage returns and newlines at its end. -/
def expressionOfLine (line : String) : String :=
  String.ofList (dropEndWhile (fun c => c == '\r' || c == '\n') line.toList)

/-- A message and, each on its own line, its causes. -/
def complaintOf (message : String) (causes : List String) : String :=
  message ++ "\n" ++ String.join (causes.map fun cause => "  caused by: " ++ cause ++ "\n")

/-- The failure came from the end of the input. -/
def isStarved : FormulaError → Bool
  | .unavailable _ .exhausted => true
  | _ => false

/-- The run of the program on an input. Writing is taken never to fail, and logging to be off, so that what is
    written is the prompts, the result and the complaint, and nothing else. -/
def run (input : Bytes) : Report :=
  let (line, rest) := takeLine input
  match decodeUtf8 line with
  | none => ⟨openingPrompt, complaintOf malformedUtf8 [], 1, false⟩
  | some text =>
    let evaluated := (Calculator.ofSource (Console.mk rest openingPrompt)).evaluate (expressionOfLine text)
    let written := evaluated.calculator.source.written
    match evaluated.result with
    | .ok value => ⟨written ++ "Result: " ++ Decimal.write value ++ "\n", "", 0, false⟩
    | .error e => ⟨written, complaintOf e.message e.causes, 1, isStarved e.cause⟩

end Reckoner.CommandLine
