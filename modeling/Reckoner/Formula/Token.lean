import Reckoner.Formula.Alphabet

/-!
# Tokens

A formula is a sequence of literals, names and single marks, with blanks before, between and after
them but never inside one. `Spelled tokens text` says that `text` is such a spelling.
-/

set_option autoImplicit false

namespace Reckoner

/-- The four operations on numbers. -/
inductive Operation where
  | add
  | sub
  | mul
  | div
  deriving DecidableEq, Repr

/-- The mark of an operation. -/
def Operation.mark : Operation → Char
  | .add => '+'
  | .sub => '-'
  | .mul => '*'
  | .div => '/'

/-- The result of an operation, one rounding of the exact result. -/
def Operation.apply : Operation → Float → Float → Float
  | .add, x, y => x + y
  | .sub, x, y => x - y
  | .mul, x, y => x * y
  | .div, x, y => x / y

/-- The smallest parts of a formula. -/
inductive Token where
  | literal (text : List Char)
  | name (text : List Char)
  | operation (op : Operation)
  | opening
  | closing
  deriving DecidableEq, Repr

/-- The characters of a token. -/
def Token.text : Token → List Char
  | .literal text => text
  | .name text => text
  | .operation op => [op.mark]
  | .opening => ['(']
  | .closing => [')']

/-- Literals and names are not empty and hold characters of their class only. -/
def Token.wellFormed : Token → Prop
  | .literal text => text ≠ [] ∧ ∀ c ∈ text, isLiteralChar c = true
  | .name text => text ≠ [] ∧ ∀ c ∈ text, c.isAlpha = true
  | .operation _ | .opening | .closing => True

/-- The tokens written one after the other. -/
def Token.join (tokens : List Token) : List Char :=
  tokens.flatMap Token.text

/-- `text` consists of the tokens in order, with any number of blanks around each. -/
inductive Spelled : List Token → List Char → Prop where
  | blanks {gap : List Char} (hgap : ∀ c ∈ gap, isBlank c = true) : Spelled [] gap
  | token {t : Token} {ts : List Token} {gap text : List Char}
      (hgap : ∀ c ∈ gap, isBlank c = true) (ht : t.wellFormed) (hts : Spelled ts text) :
      Spelled (t :: ts) (gap ++ t.text ++ text)

theorem isBlank_mark (op : Operation) : isBlank op.mark = false := by
  cases op <;> decide

/-- No well-formed token contains a blank. -/
theorem Token.isBlank_of_mem_text {t : Token} (ht : t.wellFormed) {c : Char} (hc : c ∈ t.text) :
    isBlank c = false := by
  cases t with
  | literal text =>
    apply isBlank_of_isOperandChar
    rw [isOperandChar, ht.2 c hc, Bool.or_true]
  | name text =>
    apply isBlank_of_isOperandChar
    rw [isOperandChar, ht.2 c hc, Bool.true_or]
  | operation op => rw [List.mem_singleton.mp hc]; exact isBlank_mark op
  | opening => rw [List.mem_singleton.mp hc]; decide
  | closing => rw [List.mem_singleton.mp hc]; decide

/-- Without its blanks a spelling is the tokens one after the other. -/
theorem Spelled.strip_eq_join {ts : List Token} {text : List Char} (h : Spelled ts text) :
    strip text = Token.join ts := by
  have hgaps : ∀ gap : List Char, (∀ c ∈ gap, isBlank c = true) → strip gap = [] := by
    intro gap hgap
    rw [List.eq_nil_iff_forall_not_mem]
    intro c hc
    have hm := mem_strip.mp hc
    rw [hgap c hm.1] at hm
    cases hm.2
  induction h with
  | blanks hgap => exact hgaps _ hgap
  | token hgap ht _ ih =>
    rw [strip_append, strip_append, hgaps _ hgap, ih, List.nil_append,
      strip_eq_self fun _ hc => Token.isBlank_of_mem_text ht hc]
    rfl

end Reckoner
