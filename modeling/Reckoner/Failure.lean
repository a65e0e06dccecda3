import Reckoner.Decimal.Reading

/-!
# Failures

What can go wrong, as data. Three types, each the cause of the next:

* `SourceError` — a value that was asked for did not come.
* `FormulaError` — a text is not a formula, or its value cannot be found.
* `Rejection` — an evaluation failed; it carries the text exactly as it was given.

Each has a `message`, its own text, and `causes`, the messages of what lies behind it, outermost
first.
-/

set_option autoImplicit false

namespace Reckoner

/-- One of a pair of parentheses. -/
inductive Parenthesis where
  | opening
  | closing
  deriving DecidableEq, Repr

/-- The word for it in a message. -/
def Parenthesis.word : Parenthesis → String
  | .opening => "opening"
  | .closing => "closing"

/-- Why a source has no value for a name: its input could not be read, or was at its end; the answer is not a
    numeral; the source does not know the name. -/
inductive SourceError where
  | unreadable (detail : String)
  | exhausted
  | malformed (answer : String) (flaw : Decimal.Flaw)
  | missing (name : String)
  deriving DecidableEq, Repr

/-- The text of the failure itself. -/
def SourceError.message : SourceError → String
  | .unreadable detail => "failed to read input: " ++ detail
  | .exhausted => "input ended before a value was supplied"
  | .malformed answer _ => "'" ++ answer ++ "' is not a valid number"
  | .missing name => "no value available for '" ++ name ++ "'"

/-- The texts of what lies behind it, outermost first. -/
def SourceError.causes : SourceError → List String
  | .unreadable detail => [detail]
  | .malformed _ flaw => [flaw.message]
  | .exhausted | .missing _ => []

/-- Everything that can go wrong between a text and its value, stage by stage. The first five are found in the text as
    it stands; then a name may be without a value; the others come up while the value is computed. A fragment is what
    stands at the place, blanks included. -/
inductive FormulaError where
  | empty
  | foreignCharacter (c : Char)
  | adjacentOperands (fragment : String)
  | misplacedOperator (fragment : String)
  | unmatchedParenthesis (side : Parenthesis)
  | unavailable (name : String) (cause : SourceError)
  | malformedLiteral (literal : String) (flaw : Decimal.Flaw)
  | unclosedGroup
  | undefinedName (name : String)
  | unexpectedCharacter (c : Char)
  | unexpectedEnd
  | tooDeep (limit : Nat)
  deriving DecidableEq, Repr

/-- The text of the failure itself. -/
def FormulaError.message : FormulaError → String
  | .empty => "Expression cannot be empty"
  | .foreignCharacter c => "Expression contains invalid character '" ++ c.toString ++ "'"
  | .adjacentOperands fragment =>
    "Expression contains two operands without an operator: '" ++ fragment ++ "'"
  | .misplacedOperator fragment =>
    "Expression contains invalid operator usage: '" ++ fragment ++ "'"
  | .unmatchedParenthesis side =>
    "Expression contains unmatched " ++ side.word ++ " parenthesis"
  | .unavailable name _ => "Could not obtain a value for variable " ++ name
  | .malformedLiteral literal _ => "'" ++ literal ++ "' is not a valid number"
  | .unclosedGroup => "Missing closing parenthesis"
  | .undefinedName name => "Variable " ++ name ++ " is undefined"
  | .unexpectedCharacter c => "Unexpected character: " ++ c.toString
  | .unexpectedEnd => "Unexpected end of expression"
  | .tooDeep limit => "Expression is nested more than " ++ toString limit ++ " levels deep"

/-- The texts of what lies behind it, outermost first. -/
def FormulaError.causes : FormulaError → List String
  | .unavailable _ cause => cause.message :: cause.causes
  | .malformedLiteral _ flaw => [flaw.message]
  | _ => []

/-- The failure of an evaluation: the text as it was given, and the first problem found in it. -/
structure Rejection where
  expression : String
  cause : FormulaError
  deriving DecidableEq, Repr

/-- The text of the failure itself. -/
def Rejection.message (r : Rejection) : String :=
  "Invalid expression: " ++ r.expression

/-- The texts of what lies behind it, outermost first. -/
def Rejection.causes (r : Rejection) : List String :=
  r.cause.message :: r.cause.causes

end Reckoner
