import Reckoner.Failure
import Reckoner.Formula.Alphabet

/-!
# Reading a text character by character

A `Cursor` stands somewhere in a text without blanks. It moves forward only, over one character, over
a name or over a literal. `text_next` and `text_takeRun`: no step changes the text it stands in.
-/

set_option autoImplicit false

namespace Reckoner

/-- The double of a run of digits and points. -/
def literalValue (literal : List Char) : Except FormulaError Float :=
  match Decimal.read literal with
  | .ok value => .ok value
  | .error flaw => .error (.malformedLiteral (String.ofList literal) flaw)

/-- A place in a text: the characters before it, the nearest first, and those after it. -/
structure Cursor where
  behind : List Char
  ahead : List Char
  deriving DecidableEq, Repr

namespace Cursor

/-- The cursor at the start of the text without its blanks. -/
def start (text : String) : Cursor := ⟨[], strip text.toList⟩

/-- The characters it has passed, in order. -/
def passed (c : Cursor) : List Char := c.behind.reverse

/-- The text it stands in. -/
def text (c : Cursor) : List Char := c.passed ++ c.ahead

/-- There are characters ahead. -/
def hasNext (c : Cursor) : Bool := !c.ahead.isEmpty

/-- The character ahead. -/
def peek? (c : Cursor) : Option Char := c.ahead.head?

/-- The character ahead, and the cursor behind it. -/
def next (c : Cursor) : Option Char × Cursor :=
  match c.ahead with
  | [] => (none, c)
  | x :: rest => (some x, ⟨x :: c.behind, rest⟩)

/-- The longest run of `p` characters ahead, and the cursor behind it. -/
def takeRun (p : Char → Bool) (c : Cursor) : List Char × Cursor :=
  let run := c.ahead.takeWhile p
  (run, ⟨run.reverse ++ c.behind, c.ahead.dropWhile p⟩)

/-- The letters ahead; there may be none. -/
def name (c : Cursor) : String × Cursor :=
  let (run, after) := c.takeRun Char.isAlpha
  (String.ofList run, after)

/-- The double of the digits and points ahead. They are passed whether or not they are a numeral. -/
def literal (c : Cursor) : Except FormulaError Float × Cursor :=
  let (run, after) := c.takeRun isLiteralChar
  (literalValue run, after)

@[simp] theorem text_start (s : String) : (start s).text = strip s.toList := rfl

@[simp] theorem text_next (c : Cursor) : c.next.2.text = c.text := by
  unfold next text passed
  split
  · rfl
  · rename_i x rest h
    rw [h, List.reverse_cons, List.append_assoc, List.singleton_append]

@[simp] theorem text_takeRun (p : Char → Bool) (c : Cursor) : (c.takeRun p).2.text = c.text := by
  unfold takeRun text passed
  rw [List.reverse_append, List.reverse_reverse, List.append_assoc, List.takeWhile_append_dropWhile]

end Cursor

end Reckoner
