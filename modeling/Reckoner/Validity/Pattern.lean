import Reckoner.Formula.Alphabet
import Reckoner.Validity.Search

/-!
# What no formula contains

Two patterns whose match anywhere in a text shows that the text is no formula: two operands side by
side, and an operator where an operand is due.
-/

set_option autoImplicit false

namespace Reckoner

/-- Two operands with one or more blanks, and nothing else, between them. -/
def operandsSideBySide : Pattern := fun s =>
  match s.takeWhile isOperandChar with
  | [] => none
  | first =>
    let behind := s.dropWhile isOperandChar
    match behind.takeWhile isBlank with
    | [] => none
    | gap =>
      match (behind.dropWhile isBlank).takeWhile isOperandChar with
      | [] => none
      | second => some (first ++ gap ++ second)

/-- After an operator and after an opening parenthesis an operand is due. -/
def awaitsOperand (c : Char) : Bool :=
  isOperator c || c == '('

/-- `d` may not follow `c`, after which an operand is due: it is an operator that does not begin an
    operand, or it closes a group behind an operator. Whether a group may be empty is not judged. -/
def clashes (c d : Char) : Bool :=
  isInfixOnly d || (d == ')' && isOperator c)

/-- What awaits an operand, blanks, and what may not follow it. -/
def operatorOutOfPlace : Pattern
  | [] => none
  | c :: s =>
    if awaitsOperand c then
      match s.dropWhile isBlank with
      | [] => none
      | d :: _ => if clashes c d then some (c :: s.takeWhile isBlank ++ [d]) else none
    else none

/-- The leftmost pair of operands side by side. No such pair begins inside an operand, so operands are
    passed over whole. -/
def findOperandsSideBySide (s : List Char) : Option (List Char) :=
  leftmostByRuns operandsSideBySide isOperandChar s

/-- The leftmost operator out of place. -/
def findOperatorOutOfPlace (s : List Char) : Option (List Char) :=
  leftmost operatorOutOfPlace s

end Reckoner
