import Reckoner.Validity.Balance
import Reckoner.Validity.Pattern

/-!
# Judging a text before it is evaluated

The checks run on the text without the blanks at its ends, in a fixed order, and the first that finds
something decides: emptiness, characters that no formula contains, operands side by side, operators
out of place, parentheses without partner. What passes them all need not be a formula yet: a chain
that ends in an operator, and operands or groups that touch, are left to the evaluation.
-/

set_option autoImplicit false

namespace Reckoner

/-- The first defect of a text without blanks at its ends. -/
def defect? (s : List Char) : Option FormulaError :=
  if s = [] then some .empty
  else
    match s.find? (fun c => !isFormulaChar c) with
    | some c => some (.foreignCharacter c)
    | none =>
      match findOperandsSideBySide s with
      | some piece => some (.adjacentOperands (String.ofList piece))
      | none =>
        match findOperatorOutOfPlace s with
        | some piece => some (.misplacedOperator (String.ofList piece))
        | none => (unmatched? s).map FormulaError.unmatchedParenthesis

/-- Refuses a text with a defect. -/
def validate (text : String) : Except FormulaError Unit :=
  match defect? (trimBlanks text.toList) with
  | some e => .error e
  | none => .ok ()

end Reckoner
