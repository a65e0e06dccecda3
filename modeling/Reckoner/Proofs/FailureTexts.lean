import Reckoner.Failure

/-!
# The texts of failures

A failure is told by its own text and the texts of what lies behind it, outermost first. Which texts these are is
written down here once more, kind by kind and letter by letter, apart from the functions that put them together.

* `Decimal.Flaw.Text`, `SourceError.Chain`, `FormulaError.Chain` — the texts of each kind.
* `FormulaError.chain_iff` — a failure has one chain of texts: its message and then its causes.
-/

set_option autoImplicit false

namespace Reckoner

/-- Why a text is not a numeral. -/
inductive Decimal.Flaw.Text : Flaw → String → Prop where
  | empty : Text .empty "cannot parse float from empty string"
  | invalid : Text .invalid "invalid float literal"

/-- Why a source has no value, and why that is. -/
inductive SourceError.Chain : SourceError → List String → Prop where
  | unreadable (detail : String) : Chain (.unreadable detail) ["failed to read input: " ++ detail, detail]
  | exhausted : Chain .exhausted ["input ended before a value was supplied"]
  | malformed (answer : String) {flaw : Decimal.Flaw} {text : String} (h : flaw.Text text) :
    Chain (.malformed answer flaw) ["'" ++ answer ++ "' is not a valid number", text]
  | missing (name : String) : Chain (.missing name) ["no value available for '" ++ name ++ "'"]

/-- Why a text has no value, and why that is. -/
inductive FormulaError.Chain : FormulaError → List String → Prop where
  | empty : Chain .empty ["Expression cannot be empty"]
  | foreignCharacter (c : Char) :
    Chain (.foreignCharacter c) ["Expression contains invalid character '" ++ c.toString ++ "'"]
  | adjacentOperands (fragment : String) : Chain (.adjacentOperands fragment)
      ["Expression contains two operands without an operator: '" ++ fragment ++ "'"]
  | misplacedOperator (fragment : String) : Chain (.misplacedOperator fragment)
      ["Expression contains invalid operator usage: '" ++ fragment ++ "'"]
  | unmatchedOpening :
    Chain (.unmatchedParenthesis .opening) ["Expression contains unmatched opening parenthesis"]
  | unmatchedClosing :
    Chain (.unmatchedParenthesis .closing) ["Expression contains unmatched closing parenthesis"]
  | unavailable (name : String) {cause : SourceError} {texts : List String} (h : cause.Chain texts) :
    Chain (.unavailable name cause) (("Could not obtain a value for variable " ++ name) :: texts)
  | malformedLiteral (literal : String) {flaw : Decimal.Flaw} {text : String} (h : flaw.Text text) :
    Chain (.malformedLiteral literal flaw) ["'" ++ literal ++ "' is not a valid number", text]
  | unclosedGroup : Chain .unclosedGroup ["Missing closing parenthesis"]
  | undefinedName (name : String) : Chain (.undefinedName name) ["Variable " ++ name ++ " is undefined"]
  | unexpectedCharacter (c : Char) :
    Chain (.unexpectedCharacter c) ["Unexpected character: " ++ c.toString]
  | unexpectedEnd : Chain .unexpectedEnd ["Unexpected end of expression"]
  | tooDeep (limit : Nat) : Chain (.tooDeep limit)
      ["Expression is nested more than " ++ toString limit ++ " levels deep"]

theorem Decimal.Flaw.text_iff {flaw : Flaw} {text : String} : flaw.Text text ↔ text = flaw.message := by
  constructor
  · rintro (_ | _) <;> rfl
  · rintro rfl
    cases flaw with
    | empty => exact .empty
    | invalid => exact .invalid

theorem SourceError.chain_iff {e : SourceError} {texts : List String} :
    e.Chain texts ↔ texts = e.message :: e.causes := by
  constructor
  · intro h
    cases h with
    | malformed answer h =>
      rw [Decimal.Flaw.text_iff.mp h]
      rfl
    | _ => rfl
  · rintro rfl
    cases e with
    | unreadable detail => exact .unreadable detail
    | exhausted => exact .exhausted
    | malformed answer flaw => exact .malformed answer (Decimal.Flaw.text_iff.mpr rfl)
    | missing name => exact .missing name

/-- **One chain of texts for each failure**: its message, and then its causes. -/
theorem FormulaError.chain_iff {e : FormulaError} {texts : List String} :
    e.Chain texts ↔ texts = e.message :: e.causes := by
  constructor
  · intro h
    cases h with
    | unavailable name h =>
      rw [SourceError.chain_iff.mp h]
      rfl
    | malformedLiteral literal h =>
      rw [Decimal.Flaw.text_iff.mp h]
      rfl
    | _ => rfl
  · rintro rfl
    cases e with
    | empty => exact .empty
    | foreignCharacter c => exact .foreignCharacter c
    | adjacentOperands fragment => exact .adjacentOperands fragment
    | misplacedOperator fragment => exact .misplacedOperator fragment
    | unmatchedParenthesis side =>
      cases side with
      | opening => exact .unmatchedOpening
      | closing => exact .unmatchedClosing
    | unavailable name cause => exact .unavailable name (SourceError.chain_iff.mpr rfl)
    | malformedLiteral literal flaw => exact .malformedLiteral literal (Decimal.Flaw.text_iff.mpr rfl)
    | unclosedGroup => exact .unclosedGroup
    | undefinedName name => exact .undefinedName name
    | unexpectedCharacter c => exact .unexpectedCharacter c
    | unexpectedEnd => exact .unexpectedEnd
    | tooDeep limit => exact .tooDeep limit

end Reckoner
