import Reckoner.Proofs.Validity.Occurrences

/-!
# The judgement of a text

`Judged s r` says what the right answer about a text is, by what stands in it and where, and without a word
about patterns and searches: the first defect in the order of the checks, quoted from the leftmost place where
it occurs, or that there is none.

`validate_judges_exactly`: a text gets the answer that is right about it without the blanks at its ends, and no
other.
-/

set_option autoImplicit false

namespace Reckoner

/-- A character that may stand in a formula: a letter, a digit, one of seven marks or one of six blanks. -/
def InAlphabet (c : Char) : Prop :=
  c.isAlpha = true ∨ c.isDigit = true ∨ c ∈ ['.', '+', '-', '*', '/', '(', ')'] ∨
    c ∈ [' ', '\t', '\n', '\r', '\x0b', '\x0c']

/-- Some beginning of the text closes more groups than it opens. -/
def ClosesTooEarly (s : List Char) : Prop :=
  ∃ a, a <+: s ∧ a.count '(' < a.count ')'

/-- What is the case with a text: the first of its defects, or that it has none. -/
inductive Judged (s : List Char) : Except FormulaError Unit → Prop where
  | empty (hs : s = []) : Judged s (.error .empty)
  | foreign {a b : List Char} {c : Char} (hs : s = a ++ c :: b) (hc : ¬ InAlphabet c)
      (ha : ∀ x ∈ a, InAlphabet x) : Judged s (.error (.foreignCharacter c))
  | sideBySide {piece : List Char} (halphabet : ∀ x ∈ s, InAlphabet x)
      (h : OccursFirst OperandPair s piece) : Judged s (.error (.adjacentOperands (String.ofList piece)))
  | misplaced {piece : List Char} (halphabet : ∀ x ∈ s, InAlphabet x) (hpair : ¬ Occurs OperandPair s)
      (h : OccursFirst Misplaced s piece) : Judged s (.error (.misplacedOperator (String.ofList piece)))
  | closing (halphabet : ∀ x ∈ s, InAlphabet x) (hpair : ¬ Occurs OperandPair s)
      (hplace : ¬ Occurs Misplaced s) (h : ClosesTooEarly s) :
      Judged s (.error (.unmatchedParenthesis .closing))
  | opening (halphabet : ∀ x ∈ s, InAlphabet x) (hpair : ¬ Occurs OperandPair s)
      (hplace : ¬ Occurs Misplaced s) (hclosed : ¬ ClosesTooEarly s) (h : s.count ')' < s.count '(') :
      Judged s (.error (.unmatchedParenthesis .opening))
  | accepted (hne : s ≠ []) (halphabet : ∀ x ∈ s, InAlphabet x) (hpair : ¬ Occurs OperandPair s)
      (hplace : ¬ Occurs Misplaced s) (hclosed : ¬ ClosesTooEarly s) (h : s.count '(' ≤ s.count ')') :
      Judged s (.ok ())

/-! ## Each check -/

theorem isFormulaChar_iff_inAlphabet {c : Char} : isFormulaChar c = true ↔ InAlphabet c := by
  simp only [isFormulaChar, isOperandChar, isLiteralChar, isOperator, isInfixOnly, isBlank, InAlphabet,
    Bool.or_eq_true, beq_iff_eq, List.mem_cons, List.not_mem_nil, or_false]
  grind

theorem find?_foreign_eq_none_iff_inAlphabet {s : List Char} :
    s.find? (fun c => !isFormulaChar c) = none ↔ ∀ x ∈ s, InAlphabet x := by
  rw [List.find?_eq_none]
  simp only [← isFormulaChar_iff_inAlphabet, Bool.not_eq_true', Bool.not_eq_false]

theorem find?_foreign_eq_some_iff {s : List Char} {c : Char} :
    s.find? (fun c => !isFormulaChar c) = some c ↔
      ∃ a b, s = a ++ c :: b ∧ ¬ InAlphabet c ∧ ∀ x ∈ a, InAlphabet x := by
  rw [List.find?_eq_some_iff_append]
  simp only [← isFormulaChar_iff_inAlphabet, Bool.not_eq_true', Bool.not_not, Bool.not_eq_true]
  constructor
  · rintro ⟨hc, a, b, hs, ha⟩
    exact ⟨a, b, hs, hc, ha⟩
  · rintro ⟨a, b, hs, hc, ha⟩
    exact ⟨hc, a, b, hs, ha⟩

/-- Each parenthesis has its partner. -/
theorem unmatched?_eq_none_iff_not_closesTooEarly {s : List Char} :
    unmatched? s = none ↔ ¬ ClosesTooEarly s ∧ s.count '(' ≤ s.count ')' := by
  have hle : ¬ ClosesTooEarly s ↔ ∀ a, a <+: s → a.count ')' ≤ a.count '(' := by
    simp only [ClosesTooEarly, not_exists, not_and, not_lt]
  rw [unmatched?_eq_none_iff, hle]
  constructor
  · intro h
    exact ⟨h.closes_le, h.closes_eq.ge⟩
  · rintro ⟨hcloses, hopens⟩
    exact ⟨hcloses, Nat.le_antisymm (hcloses s (List.prefix_refl s)) hopens⟩

/-! ## All checks, one after the other -/

theorem judged_of_defect?_eq_some {s : List Char} {e : FormulaError} (h : defect? s = some e) :
    Judged s (.error e) := by
  unfold defect? at h
  split at h
  · rename_i hs
    cases h
    exact .empty hs
  · split at h
    · rename_i c hforeign
      cases h
      obtain ⟨a, b, hs, hc, ha⟩ := find?_foreign_eq_some_iff.mp hforeign
      exact .foreign hs hc ha
    · rename_i hforeign
      have halphabet := find?_foreign_eq_none_iff_inAlphabet.mp hforeign
      split at h
      · rename_i piece hside
        cases h
        exact .sideBySide halphabet (findOperandsSideBySide_eq_some_iff.mp hside)
      · rename_i hside
        have hpair := findOperandsSideBySide_eq_none_iff_not_occurs.mp hside
        split at h
        · rename_i piece hfound
          cases h
          exact .misplaced halphabet hpair (findOperatorOutOfPlace_eq_some_iff.mp hfound)
        · rename_i hfound
          have hplace := findOperatorOutOfPlace_eq_none_iff_not_occurs.mp hfound
          obtain ⟨side, hunmatched, rfl⟩ := Option.map_eq_some_iff.mp h
          cases side with
          | closing => exact .closing halphabet hpair hplace (unmatched?_eq_closing_iff.mp hunmatched)
          | opening =>
            obtain ⟨hclosed, hlt⟩ := unmatched?_eq_opening_iff.mp hunmatched
            exact .opening halphabet hpair hplace hclosed hlt

theorem judged_of_defect?_eq_none {s : List Char} (h : defect? s = none) : Judged s (.ok ()) := by
  unfold defect? at h
  split at h
  · cases h
  · rename_i hne
    split at h
    · cases h
    · rename_i hforeign
      split at h
      · cases h
      · rename_i hside
        split at h
        · cases h
        · rename_i hfound
          obtain ⟨hclosed, hle⟩ :=
            unmatched?_eq_none_iff_not_closesTooEarly.mp (Option.map_eq_none_iff.mp h)
          exact .accepted hne (find?_foreign_eq_none_iff_inAlphabet.mp hforeign)
            (findOperandsSideBySide_eq_none_iff_not_occurs.mp hside)
            (findOperatorOutOfPlace_eq_none_iff_not_occurs.mp hfound) hclosed hle

theorem Occurs.ne_nil {kind : PieceKind} {s : List Char} (hkind : ∀ a b, ¬ kind a [] b)
    (h : Occurs kind s) : s ≠ [] := by
  rintro rfl
  obtain ⟨a, piece, b, hs, h⟩ := h
  obtain ⟨hfront, -⟩ := List.append_eq_nil_iff.mp hs.symm
  obtain ⟨-, rfl⟩ := List.append_eq_nil_iff.mp hfront
  exact hkind a b h

theorem not_operandPair_nil (a b : List Char) : ¬ OperandPair a [] b := by
  rintro ⟨first, gap, second, hpiece, ⟨hne, -⟩, -⟩
  simp [hne] at hpiece

theorem not_misplaced_nil (a b : List Char) : ¬ Misplaced a [] b := by
  rintro ⟨c, gap, d, hpiece, -⟩
  simp at hpiece

/-- Behind all checks but the last. -/
theorem defect?_of_not_occurs {s : List Char} (hne : s ≠ []) (halphabet : ∀ x ∈ s, InAlphabet x)
    (hpair : ¬ Occurs OperandPair s) (hplace : ¬ Occurs Misplaced s) :
    defect? s = (unmatched? s).map FormulaError.unmatchedParenthesis := by
  simp only [defect?, if_neg hne, find?_foreign_eq_none_iff_inAlphabet.mpr halphabet,
    findOperandsSideBySide_eq_none_iff_not_occurs.mpr hpair,
    findOperatorOutOfPlace_eq_none_iff_not_occurs.mpr hplace]

theorem defect?_eq_some_of_judged {s : List Char} {e : FormulaError} (h : Judged s (.error e)) :
    defect? s = some e := by
  cases h with
  | empty hs => rw [defect?, if_pos hs]
  | foreign hs hc ha =>
    have hfound := find?_foreign_eq_some_iff.mpr ⟨_, _, hs, hc, ha⟩
    have hne : s ≠ [] := by
      rw [hs]
      simp
    simp only [defect?, if_neg hne, hfound]
  | sideBySide halphabet h =>
    simp only [defect?, if_neg (h.occurs.ne_nil not_operandPair_nil),
      find?_foreign_eq_none_iff_inAlphabet.mpr halphabet, findOperandsSideBySide_eq_some_iff.mpr h]
  | misplaced halphabet hpair h =>
    simp only [defect?, if_neg (h.occurs.ne_nil not_misplaced_nil),
      find?_foreign_eq_none_iff_inAlphabet.mpr halphabet,
      findOperandsSideBySide_eq_none_iff_not_occurs.mpr hpair, findOperatorOutOfPlace_eq_some_iff.mpr h]
  | closing halphabet hpair hplace h =>
    have hne : s ≠ [] := by
      rintro rfl
      obtain ⟨a, ha, hlt⟩ := h
      rw [List.prefix_nil.mp ha] at hlt
      simp at hlt
    rw [defect?_of_not_occurs hne halphabet hpair hplace, unmatched?_eq_closing_iff.mpr h,
      Option.map_some]
  | opening halphabet hpair hplace hclosed h =>
    have hne : s ≠ [] := by
      rintro rfl
      simp at h
    rw [defect?_of_not_occurs hne halphabet hpair hplace, unmatched?_eq_opening_iff.mpr ⟨hclosed, h⟩,
      Option.map_some]

theorem defect?_eq_none_of_judged {s : List Char} (h : Judged s (.ok ())) : defect? s = none := by
  cases h with
  | accepted hne halphabet hpair hplace hclosed h =>
    rw [defect?_of_not_occurs hne halphabet hpair hplace,
      unmatched?_eq_none_iff_not_closesTooEarly.mpr ⟨hclosed, h⟩, Option.map_none]

/-- **The answer to a text is the right one**, for every text: what is judged is the text without the blanks
    at its ends, and the answer is the one that is right about it, and no other. -/
theorem validate_judges_exactly (text : String) :
    (∃ lead trail, text.toList = lead ++ trimBlanks text.toList ++ trail ∧
      (∀ c ∈ lead, isBlank c = true) ∧ ∀ c ∈ trail, isBlank c = true) ∧
    BeginsWithout isBlank (trimBlanks text.toList) ∧ EndsWithout isBlank (trimBlanks text.toList) ∧
    ∀ r, validate text = r ↔ Judged (trimBlanks text.toList) r := by
  obtain ⟨hbegins, hends⟩ := trimWhile_ends isBlank text.toList
  refine ⟨exists_blanks_trimBlanks text.toList, hbegins, hends, fun r => ?_⟩
  unfold validate
  constructor
  · rintro rfl
    split
    · rename_i e he
      exact judged_of_defect?_eq_some he
    · rename_i hnone
      exact judged_of_defect?_eq_none hnone
  · intro h
    cases r with
    | error e => simp only [defect?_eq_some_of_judged h]
    | ok u => simp only [defect?_eq_none_of_judged h]

end Reckoner
