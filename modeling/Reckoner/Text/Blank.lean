import Reckoner.Text.Trim

/-!
# Blanks

The six characters that may stand before, between and after the tokens of an expression, and the two
ways of leaving them out.

* `isBlank` — the class.
* `strip` — the text without any of them; this is the form an expression is evaluated in.
* `trimBlanks` — the text without those at its two ends; this is the form an expression is judged in.
-/

set_option autoImplicit false

namespace Reckoner

/-- Space, tab, newline, carriage return, vertical tab and form feed. -/
def isBlank (c : Char) : Bool :=
  c == ' ' || c == '\t' || c == '\n' || c == '\r' || c == '\x0b' || c == '\x0c'

/-- The text without its blanks. -/
def strip (s : List Char) : List Char :=
  s.filter (fun c => !isBlank c)

/-- The text without the blanks at its two ends. -/
def trimBlanks (s : List Char) : List Char :=
  trimWhile isBlank s

@[simp] theorem strip_nil : strip [] = [] := rfl

theorem strip_cons (c : Char) (s : List Char) :
    strip (c :: s) = if isBlank c then strip s else c :: strip s := by
  unfold strip
  rw [List.filter_cons]
  cases isBlank c <;> rfl

@[simp] theorem strip_append (s t : List Char) : strip (s ++ t) = strip s ++ strip t :=
  List.filter_append ..

theorem mem_strip {c : Char} {s : List Char} : c ∈ strip s ↔ c ∈ s ∧ isBlank c = false := by
  unfold strip
  rw [List.mem_filter, Bool.not_eq_true']

/-- A text without blanks is its own stripped form. -/
theorem strip_eq_self {s : List Char} (h : ∀ c ∈ s, isBlank c = false) : strip s = s := by
  unfold strip
  rw [List.filter_eq_self]
  intro c hc
  rw [h c hc]
  rfl

@[simp] theorem strip_strip (s : List Char) : strip (strip s) = strip s :=
  strip_eq_self fun _ hc => (mem_strip.mp hc).2

end Reckoner
