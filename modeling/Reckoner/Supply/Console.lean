import Reckoner.Supply.Source
import Reckoner.Text.Line
import Reckoner.Text.WhiteSpace

/-!
# A console as a source

Each request writes a prompt and takes one line of the input, whatever becomes of the line: it is the
value if, without white space at its ends, it is a numeral. At the end of the input every request
fails, and prompts all the same.
-/

set_option autoImplicit false

namespace Reckoner

/-- A console: the bytes that were not read yet, and the text that was written so far. -/
structure Console where
  unread : Bytes
  written : String
  deriving DecidableEq, Repr

namespace Console

/-- The text that asks for the value of a name. -/
def prompt (name : String) : String :=
  "Enter value for variable " ++ name ++ ": "

/-- The answer that a line is; no line has no bytes at all. -/
def answerOfLine (line : Bytes) : Answer :=
  if line = [] then .error .exhausted
  else
    match decodeUtf8 line with
    | none => .error (.unreadable malformedUtf8)
    | some text =>
      let body := trimWhiteSpace text.toList
      match Decimal.read body with
      | .ok value => .ok value
      | .error flaw => .error (.malformed (String.ofList body) flaw)

/-- Prompts for the name and takes one line. Writing the prompt is taken never to fail: if it did, nothing would be
    read and the request would fail with that. -/
def request (c : Console) (name : String) : Answer × Console :=
  let (line, unread) := takeLine c.unread
  (answerOfLine line, ⟨unread, c.written ++ prompt name⟩)

end Console

instance : ValueSource Console where
  request := Console.request

end Reckoner
