import Mathlib.Data.List.TakeWhile
import Reckoner.Formula.Cursor
import Reckoner.Proofs.Text.Runs

/-!
# Which literals are numerals

A literal is a run of digits and points. `read_isOk_iff`: it can be read exactly if it has a digit and no
second point. No sign, exponent or word comes into question, as these need other characters.
-/

set_option autoImplicit false

namespace Reckoner

/-- At least one digit and at most one point. -/
def isNumeral (literal : List Char) : Bool :=
  literal.any Char.isDigit && decide (literal.count '.' ≤ 1)

namespace Decimal

theorem count_point_of_digits {s : List Char} (h : ∀ c ∈ s, c.isDigit = true) : s.count '.' = 0 := by
  rw [List.count_eq_zero]
  intro hm
  have := h _ hm
  revert this
  decide

theorem toLower_of_isLiteralChar {c : Char} (h : isLiteralChar c = true) : c.toLower = c := by
  have hupper : ¬ (65 ≤ c.val ∧ c.val ≤ 90) := by
    intro hu
    have halpha : c.isAlpha = true := by
      show (decide (65 ≤ c.val ∧ c.val ≤ 90) || (decide (97 ≤ c.val) && decide (c.val ≤ 122))) = true
      rw [decide_eq_true hu, Bool.true_or]
    rw [isLiteralChar_of_isAlpha halpha] at h
    cases h
  unfold Char.toLower
  exact dif_neg hupper

theorem splitSign_of_isLiteralChar {c : Char} {s : List Char} (hc : isLiteralChar c = true) :
    splitSign (c :: s) = (false, c :: s) := by
  unfold splitSign
  split
  · rename_i heq
    cases heq
    exact absurd hc (by decide)
  · rename_i heq
    cases heq
    exact absurd hc (by decide)
  · rfl

theorem readWord?_of_isLiteralChar {c : Char} {s : List Char} (hc : isLiteralChar c = true) :
    readWord? (c :: s) = none := by
  have hne : ∀ (d : Char) (ds : List Char), d.isAlpha = true →
      String.ofList ((c :: s).map Char.toLower) ≠ String.ofList (d :: ds) := by
    intro d ds hd heq
    rw [String.ofList_inj, List.map_cons, toLower_of_isLiteralChar hc] at heq
    cases heq
    rw [isLiteralChar_of_isAlpha hd] at hc
    cases hc
  unfold readWord?
  split
  · rename_i heq
    exact absurd heq (hne 'i' ['n', 'f'] (by decide))
  · rename_i heq
    exact absurd heq (hne 'i' ['n', 'f', 'i', 'n', 'i', 't', 'y'] (by decide))
  · rename_i heq
    exact absurd heq (hne 'n' ['a', 'n'] (by decide))
  · rfl

/-- Behind its leading digits a literal is at its end or at a point. -/
theorem dropWhile_isDigit_cases {s : List Char} (h : ∀ c ∈ s, isLiteralChar c = true) :
    s.dropWhile Char.isDigit = [] ∨ ∃ t, s.dropWhile Char.isDigit = '.' :: t := by
  cases hd : s.dropWhile Char.isDigit with
  | nil => exact Or.inl rfl
  | cons c t =>
    have hdigit : c.isDigit = false := beginsWithout_cons.mp (hd ▸ beginsWithout_dropWhile Char.isDigit s)
    have hmem : c ∈ s := (List.dropWhile_suffix Char.isDigit).subset (hd ▸ List.mem_cons_self)
    have hc := h c hmem
    simp only [isLiteralChar, hdigit, Bool.false_or, beq_iff_eq] at hc
    exact Or.inr ⟨t, by rw [hc]⟩

theorem readDigits?_isSome_iff {s : List Char} (h : ∀ c ∈ s, isLiteralChar c = true) :
    (readDigits? s).isSome = true ↔ isNumeral s = true := by
  have hs := List.takeWhile_append_dropWhile (p := Char.isDigit) (l := s)
  have hwhole : ∀ c ∈ s.takeWhile Char.isDigit, c.isDigit = true := fun c hc => List.mem_takeWhile_imp hc
  unfold readDigits? isNumeral
  generalize s.takeWhile Char.isDigit = whole at hs hwhole
  rcases dropWhile_isDigit_cases h with hd | ⟨t, hd⟩
  · -- digits only
    rw [hd, List.append_nil] at hs
    subst hs
    rw [hd]
    cases whole with
    | nil => simp [splitFraction]
    | cons c whole =>
      have hc := hwhole c (by simp)
      simp [splitFraction, readExponent?, count_point_of_digits hwhole, hc]
  · rw [hd] at hs
    have ht : ∀ c ∈ t, isLiteralChar c = true := fun c hc => h c (by rw [← hs]; simp [hc])
    have hst := List.takeWhile_append_dropWhile (p := Char.isDigit) (l := t)
    have hfraction : ∀ c ∈ t.takeWhile Char.isDigit, c.isDigit = true :=
      fun c hc => List.mem_takeWhile_imp hc
    rw [hd]
    simp only [splitFraction]
    rcases dropWhile_isDigit_cases ht with hdt | ⟨u, hdt⟩
    · -- one point
      rw [hdt, List.append_nil] at hst
      rw [hst] at hfraction
      have hcount : s.count '.' = 1 := by
        rw [← hs, List.count_append, List.count_cons_self, count_point_of_digits hwhole,
          count_point_of_digits hfraction]
      rw [hst, hdt, hcount, ← hs]
      cases whole with
      | cons c whole => simp [readExponent?, hwhole c (by simp)]
      | nil =>
        cases t with
        | nil => simp
        | cons c t => simp [readExponent?, hfraction c (by simp)]
    · -- a second point
      have hcount : 2 ≤ s.count '.' := by
        rw [← hs, List.count_append, List.count_cons_self, ← hst, hdt, List.count_append,
          List.count_cons_self]
        omega
      have hfew : ¬ s.count '.' ≤ 1 := by omega
      rw [hdt]
      simp [readExponent?, hfew]

/-- **A literal can be read exactly if it is a numeral.** -/
theorem read_isOk_iff {literal : List Char} (h : ∀ c ∈ literal, isLiteralChar c = true) :
    (∃ value, read literal = .ok value) ↔ isNumeral literal = true := by
  rw [← readDigits?_isSome_iff h]
  cases literal with
  | nil => simp [read, readDigits?, splitFraction]
  | cons c s =>
    have hc := h c (by simp)
    unfold read
    rw [if_neg (by simp), splitSign_of_isLiteralChar hc]
    simp only [readUnsigned?, readWord?_of_isLiteralChar hc]
    cases readDigits? (c :: s) <;> simp

end Decimal

/-- A literal that is no numeral fails with its own text. -/
theorem literalValue_eq_error {literal : List Char} {e : FormulaError}
    (hl : ∀ c ∈ literal, isLiteralChar c = true) (h : literalValue literal = .error e) :
    isNumeral literal = false ∧ ∃ flaw, e = .malformedLiteral (String.ofList literal) flaw := by
  unfold literalValue at h
  split at h
  · cases h
  · rename_i flaw hread
    cases h
    refine ⟨?_, flaw, rfl⟩
    cases hn : isNumeral literal with
    | false => rfl
    | true =>
      obtain ⟨value, hv⟩ := (Decimal.read_isOk_iff hl).mpr hn
      rw [hread] at hv
      cases hv

end Reckoner
