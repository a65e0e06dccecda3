import Mathlib.Data.List.Infix
import Reckoner.Proofs.Validity.Leftmost
import Reckoner.Validity.Verdict

/-!
# What a text without defect is like

* `unmatched?_eq_none_iff` — parentheses lack no partner exactly if no beginning of the text closes more
  than it opens and the whole text closes as many as it opens.
* `validate_eq_ok_iff` — a text is accepted exactly if it is `Acceptable`. The checks look at the text
  without the blanks at its ends; what they find does not depend on these.
* `isDefect_of_validate_eq_error` — the failures that the checks report are theirs alone.
-/

set_option autoImplicit false

namespace Reckoner

/-! ## Parentheses -/

/-- No beginning of the text closes more groups than it opens, and all are closed in the end. -/
structure Balanced (s : List Char) : Prop where
  closes_le : ∀ a, a <+: s → a.count ')' ≤ a.count '('
  closes_eq : s.count ')' = s.count '('

theorem unmatchedFrom?_open (opened : Nat) (s : List Char) :
    unmatchedFrom? opened ('(' :: s) = unmatchedFrom? (opened + 1) s := by
  simp [unmatchedFrom?]

theorem unmatchedFrom?_close_zero (s : List Char) : unmatchedFrom? 0 (')' :: s) = some .closing := by
  simp [unmatchedFrom?]

theorem unmatchedFrom?_close_succ (opened : Nat) (s : List Char) :
    unmatchedFrom? (opened + 1) (')' :: s) = unmatchedFrom? opened s := by
  simp [unmatchedFrom?]

theorem unmatchedFrom?_other {c : Char} (hopen : c ≠ '(') (hclose : c ≠ ')') (opened : Nat)
    (s : List Char) : unmatchedFrom? opened (c :: s) = unmatchedFrom? opened s := by
  simp [unmatchedFrom?, hopen, hclose]

theorem forall_prefix_cons {P : List Char → Prop} {c : Char} {s : List Char} :
    (∀ a, a <+: c :: s → P a) ↔ P [] ∧ ∀ a, a <+: s → P (c :: a) := by
  simp only [List.prefix_cons_iff]
  constructor
  · intro h
    exact ⟨h [] (Or.inl rfl), fun a ha => h (c :: a) (Or.inr ⟨a, rfl, ha⟩)⟩
  · rintro ⟨h0, h⟩ a (rfl | ⟨b, rfl, hb⟩)
    · exact h0
    · exact h b hb

theorem unmatchedFrom?_eq_none_iff {s : List Char} (opened : Nat) :
    unmatchedFrom? opened s = none ↔ (∀ a, a <+: s → a.count ')' ≤ opened + a.count '(') ∧
      s.count ')' = opened + s.count '(' := by
  induction s generalizing opened with
  | nil => simp [unmatchedFrom?]; omega
  | cons c s ih =>
    rw [forall_prefix_cons]
    by_cases hopen : c = '('
    · subst hopen
      rw [unmatchedFrom?_open, ih]
      simp [Nat.add_comm, Nat.add_left_comm]
    by_cases hclose : c = ')'
    · subst hclose
      cases opened with
      | zero =>
        rw [unmatchedFrom?_close_zero]
        constructor
        · intro h
          cases h
        · rintro ⟨⟨_, h⟩, _⟩
          simpa using h [] List.nil_prefix
      | succ opened =>
        have hcloses : ∀ a : List Char, (')' :: a).count ')' = a.count ')' + 1 := fun a => by simp
        have hopens : ∀ a : List Char, (')' :: a).count '(' = a.count '(' := fun a => by simp
        rw [unmatchedFrom?_close_succ, ih]
        simp only [hcloses, hopens, List.count_nil, Nat.zero_le, true_and]
        constructor
        · rintro ⟨h, heq⟩
          exact ⟨fun a ha => by have := h a ha; omega, by omega⟩
        · rintro ⟨h, heq⟩
          exact ⟨fun a ha => by have := h a ha; omega, by omega⟩
    · rw [unmatchedFrom?_other hopen hclose, ih]
      simp [hopen, hclose]

/-- **Balance**, read off the counts. -/
theorem unmatched?_eq_none_iff {s : List Char} : unmatched? s = none ↔ Balanced s := by
  unfold unmatched?
  rw [unmatchedFrom?_eq_none_iff]
  simp only [Nat.zero_add]
  exact ⟨fun h => ⟨h.1, h.2⟩, fun h => ⟨h.closes_le, h.closes_eq⟩⟩

theorem unmatchedFrom?_strip (opened : Nat) (s : List Char) :
    unmatchedFrom? opened (strip s) = unmatchedFrom? opened s := by
  induction s generalizing opened with
  | nil => rfl
  | cons c s ih =>
    rw [strip_cons]
    by_cases hopen : c = '('
    · subst hopen
      rw [if_neg (by decide), unmatchedFrom?_open, unmatchedFrom?_open, ih]
    by_cases hclose : c = ')'
    · subst hclose
      rw [if_neg (by decide)]
      cases opened with
      | zero => rw [unmatchedFrom?_close_zero, unmatchedFrom?_close_zero]
      | succ opened => rw [unmatchedFrom?_close_succ, unmatchedFrom?_close_succ, ih]
    · rw [unmatchedFrom?_other hopen hclose, ← ih]
      split
      · rfl
      · rw [unmatchedFrom?_other hopen hclose]

/-! ## Acceptance -/

/-- A text in which no check finds a defect. -/
structure Acceptable (s : List Char) : Prop where
  nonempty : strip s ≠ []
  formulaChars : ∀ c ∈ strip s, isFormulaChar c = true
  notSideBySide : ∀ n ∈ neighbours s, n.sideBySide = false
  noClash : ∀ n ∈ neighbours s, n.clash = false
  balanced : Balanced (strip s)

theorem find?_foreign_eq_none_iff {s : List Char} :
    s.find? (fun c => !isFormulaChar c) = none ↔ ∀ c ∈ strip s, isFormulaChar c = true := by
  rw [List.find?_eq_none]
  constructor
  · intro h c hc
    simpa using h c (mem_strip.mp hc).1
  · intro h c hc
    cases hb : isBlank c with
    | true => simp [isFormulaChar, hb]
    | false => simpa using h c (mem_strip.mpr ⟨hc, hb⟩)

theorem trimBlanks_eq_nil_iff {s : List Char} : trimBlanks s = [] ↔ strip s = [] := by
  constructor
  · intro h
    rw [← strip_trimBlanks, h, strip_nil]
  · intro h
    have hb := strip_eq_nil_iff.mp h
    unfold trimBlanks trimWhile
    rw [List.dropWhile_eq_nil_iff.mpr hb, dropEndWhile_nil]

theorem defect?_eq_none_iff {s : List Char} (hs : s = [] ↔ strip s = []) :
    defect? s = none ↔ Acceptable s := by
  constructor
  · intro h
    unfold defect? at h
    split at h
    · cases h
    · rename_i hne
      split at h
      · cases h
      · rename_i hchars
        split at h
        · cases h
        · rename_i hside
          split at h
          · cases h
          · rename_i hplace
            rw [Option.map_eq_none_iff, unmatched?, ← unmatchedFrom?_strip] at h
            exact ⟨fun hn => hne (hs.mpr hn), find?_foreign_eq_none_iff.mp hchars,
              findOperandsSideBySide_eq_none_iff.mp hside, findOperatorOutOfPlace_eq_none_iff.mp hplace,
              unmatched?_eq_none_iff.mp h⟩
  · intro h
    have hbalanced := unmatched?_eq_none_iff.mpr h.balanced
    rw [unmatched?, unmatchedFrom?_strip] at hbalanced
    unfold defect?
    rw [if_neg fun hn => h.nonempty (hs.mp hn), find?_foreign_eq_none_iff.mpr h.formulaChars,
      findOperandsSideBySide_eq_none_iff.mpr h.notSideBySide,
      findOperatorOutOfPlace_eq_none_iff.mpr h.noClash]
    simp [unmatched?, hbalanced]

/-- Blanks at the ends have no part in whether a text is acceptable. -/
theorem acceptable_trimBlanks {s : List Char} : Acceptable (trimBlanks s) ↔ Acceptable s := by
  constructor
  · rintro ⟨h1, h2, h3, h4, h5⟩
    rw [strip_trimBlanks] at h1 h2 h5
    rw [neighbours_trimBlanks] at h3 h4
    exact ⟨h1, h2, h3, h4, h5⟩
  · rintro ⟨h1, h2, h3, h4, h5⟩
    rw [← strip_trimBlanks] at h1 h2 h5
    rw [← neighbours_trimBlanks] at h3 h4
    exact ⟨h1, h2, h3, h4, h5⟩

/-- **What passes the checks.** -/
theorem validate_eq_ok_iff {text : String} : validate text = .ok () ↔ Acceptable text.toList := by
  have hs : trimBlanks text.toList = [] ↔ strip (trimBlanks text.toList) = [] := by
    rw [strip_trimBlanks]
    exact trimBlanks_eq_nil_iff
  rw [← acceptable_trimBlanks, ← defect?_eq_none_iff hs]
  unfold validate
  cases defect? (trimBlanks text.toList) <;> simp

/-- The failure comes from the checks. -/
def FormulaError.isDefect : FormulaError → Bool
  | .empty | .foreignCharacter _ | .adjacentOperands _ | .misplacedOperator _ |
    .unmatchedParenthesis _ => true
  | _ => false

theorem validate_eq_error_iff {text : String} {e : FormulaError} :
    validate text = .error e ↔ defect? (trimBlanks text.toList) = some e := by
  unfold validate
  cases defect? (trimBlanks text.toList) <;> simp

/-- Two texts get corresponding answers if their first defects correspond. -/
theorem validate_eq_mapError {text text' : String} {g : FormulaError → FormulaError}
    (h : defect? (trimBlanks text'.toList) = (defect? (trimBlanks text.toList)).map g) :
    validate text' = (validate text).mapError g := by
  unfold validate
  rw [h]
  cases defect? (trimBlanks text.toList) <;> rfl

theorem isDefect_of_validate_eq_error {text : String} {e : FormulaError}
    (h : validate text = .error e) : e.isDefect = true := by
  have hdefect := validate_eq_error_iff.mp h
  unfold defect? at hdefect
  split at hdefect
  · cases hdefect
    rfl
  · split at hdefect
    · cases hdefect
      rfl
    · split at hdefect
      · cases hdefect
        rfl
      · split at hdefect
        · cases hdefect
          rfl
        · obtain ⟨side, -, rfl⟩ := Option.map_eq_some_iff.mp hdefect
          rfl

end Reckoner
