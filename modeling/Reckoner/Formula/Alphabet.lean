import Reckoner.Text.Blank

/-!
# The characters of formulas

Letters and digits are those of ASCII: a name is a run of letters, a literal a run of digits and
points. Both are operands. Besides them a formula has four operators, parentheses and blanks.
-/

set_option autoImplicit false

namespace Reckoner

/-- A character of a literal. -/
def isLiteralChar (c : Char) : Bool :=
  c.isDigit || c == '.'

/-- A character of a name or of a literal. -/
def isOperandChar (c : Char) : Bool :=
  c.isAlpha || isLiteralChar c

/-- An operator that always stands between two operands. -/
def isInfixOnly (c : Char) : Bool :=
  c == '+' || c == '*' || c == '/'

/-- An operator. A minus may also stand in front of its operand. -/
def isOperator (c : Char) : Bool :=
  isInfixOnly c || c == '-'

/-- A character that may occur in a formula. -/
def isFormulaChar (c : Char) : Bool :=
  isOperandChar c || isOperator c || c == '(' || c == ')' || isBlank c

/-- No blank is part of an operand. -/
theorem isOperandChar_of_isBlank {c : Char} (h : isBlank c = true) : isOperandChar c = false := by
  simp only [isBlank, Bool.or_eq_true, beq_iff_eq] at h
  rcases h with ((((h | h) | h) | h) | h) | h <;> subst h <;> decide

theorem isBlank_of_isOperandChar {c : Char} (h : isOperandChar c = true) : isBlank c = false := by
  cases hb : isBlank c with
  | false => rfl
  | true => rw [isOperandChar_of_isBlank hb] at h; cases h

/-- A letter is neither digit nor point, so a name ends where a literal begins. -/
theorem isLiteralChar_of_isAlpha {c : Char} (h : c.isAlpha = true) : isLiteralChar c = false := by
  have hletter : (decide (65 ≤ c.val ∧ c.val ≤ 90)
      || (decide (97 ≤ c.val) && decide (c.val ≤ 122))) = true := h
  rw [Bool.eq_false_iff]
  intro hl
  have hl : (decide (48 ≤ c.val) && decide (c.val ≤ 57) || c == '.') = true := hl
  simp only [Bool.or_eq_true, Bool.and_eq_true, decide_eq_true_eq, beq_iff_eq,
    UInt32.le_iff_toNat_le] at hletter hl
  rcases hl with hl | hl
  · simp at hletter hl
    omega
  · subst hl
    simp at hletter

/-- No character of a literal is a letter. -/
theorem isAlpha_of_isLiteralChar {c : Char} (h : isLiteralChar c = true) : c.isAlpha = false := by
  cases ha : c.isAlpha with
  | false => rfl
  | true =>
    rw [isLiteralChar_of_isAlpha ha] at h
    cases h

theorem isOperandChar_of_isLiteralChar {c : Char} (h : isLiteralChar c = true) :
    isOperandChar c = true := by
  simp [isOperandChar, h]

theorem isOperandChar_of_isAlpha {c : Char} (h : c.isAlpha = true) : isOperandChar c = true := by
  simp [isOperandChar, h]

theorem isBlank_of_isAlpha {c : Char} (h : c.isAlpha = true) : isBlank c = false :=
  isBlank_of_isOperandChar (isOperandChar_of_isAlpha h)

theorem isAlpha_of_isBlank {c : Char} (h : isBlank c = true) : c.isAlpha = false :=
  Bool.eq_false_iff.mpr fun ha => by
    rw [isBlank_of_isAlpha ha] at h
    cases h

end Reckoner
