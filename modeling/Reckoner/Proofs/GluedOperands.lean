import Reckoner.Formula.Cursor
import Reckoner.Proofs.FirstDefect

/-!
# Operands that leaving out blanks would glue together

A text is judged with its blanks and read without them. An operand that ends where another one begins would
then be read as one operand with it.

* `length_runs_strip` — by leaving out the blanks a text loses exactly one operand for each pair of operands
  side by side.
* `exists_adjacentOperands_iff` — the check for such pairs finds one exactly if there is one.
* `operands_glued_exactly_if_refused` — so where this check finds nothing, the operands, the names and the
  literals that are read are those of the text, and where it finds something, the operands are not.
-/

set_option autoImplicit false

namespace Reckoner

/-! ## How many operands are lost -/

/-- How long the begun run is does not tell how many runs there are. -/
theorem length_runsFrom_cons {p : Char → Bool} (c d : Char) (run s : List Char) :
    (runsFrom p (c :: run) s).length = (runsFrom p [d] s).length := by
  induction s generalizing c d run with
  | nil => rfl
  | cons e s ih =>
    rw [runsFrom, runsFrom]
    split
    · rw [ih e e (c :: run), ih e e [d]]
    · rfl

/-- A run that is finished in front of a `p` character, and not continued, counts as one more. -/
theorem length_finishedRun_append (p : Char → Bool) (run s : List Char) :
    (finishedRun run ++ runs p s).length =
      (runsFrom p run s).length + if run ≠ [] ∧ s.head?.any p = true then 1 else 0 := by
  cases run with
  | nil => rfl
  | cons c run =>
    cases s with
    | nil => rfl
    | cons d s =>
      cases hd : p d with
      | false =>
        rw [← runsFrom_of_beginsWithout _ (beginsWithout_cons.mpr hd)]
        simp [hd]
      | true =>
        rw [runs, runsFrom, runsFrom, if_pos hd, if_pos hd, length_runsFrom_cons d d (c :: run)]
        simp [finishedRun, hd, Nat.add_comm]

theorem countP_withNext (c : Char) (s : List Char) :
    (withNext c s).toList.countP Neighbours.sideBySide =
      if isOperandChar c = true ∧ s.head?.any isBlank = true ∧ (strip s).head?.any isOperandChar = true
      then 1 else 0 := by
  rw [head?_strip, withNext]
  cases s.dropWhile isBlank with
  | nil => simp
  | cons d r =>
    simp only [Option.toList_some, List.countP_singleton, Neighbours.sideBySide, Bool.and_eq_true,
      List.head?_cons, Option.any_some]
    grind

/-- How many operands are lost when `run` has been read just before the text. By induction on the text: a run
    that ends at a blank is glued to an operand behind it, and of this pair only the right one is in the text. -/
theorem length_runsFrom_strip (run s : List Char) :
    (runsFrom isOperandChar run s).length =
      (runsFrom isOperandChar run (strip s)).length + (neighbours s).countP Neighbours.sideBySide +
        if run ≠ [] ∧ s.head?.any isBlank = true ∧ (strip s).head?.any isOperandChar = true then 1 else 0 := by
  induction s generalizing run with
  | nil => simp [neighbours]
  | cons c s ih =>
    cases hc : isBlank c with
    | true =>
      have hglued := length_finishedRun_append isOperandChar run (strip s)
      have ih := ih []
      rw [strip_cons, if_pos hc, neighbours_cons_of_blank hc, runsFrom, isOperandChar_of_isBlank hc]
      simp only [List.length_append, List.head?_cons, Option.any_some, hc, true_and, ne_eq, not_true,
        false_and, if_false, Bool.false_eq_true, runs] at ih hglued ⊢
      omega
    | false =>
      rw [strip_cons, hc, neighbours_cons_of_mark hc, List.countP_append, countP_withNext]
      simp only [Bool.false_eq_true, if_false, runsFrom, List.head?_cons, Option.any_some, hc, false_and,
        and_false]
      cases hop : isOperandChar c with
      | true =>
        have ih := ih (c :: run)
        simp only [ne_eq, reduceCtorEq, not_false_eq_true, true_and] at ih
        simp only [if_true, true_and]
        omega
      | false =>
        have ih := ih []
        simp only [ne_eq, not_true, false_and, if_false] at ih
        simp only [Bool.false_eq_true, if_false, false_and, List.length_append]
        omega

/-- **Each pair of operands side by side is one operand less** in the text without blanks. -/
theorem length_runs_strip (s : List Char) :
    (runs isOperandChar s).length =
      (runs isOperandChar (strip s)).length + (neighbours s).countP Neighbours.sideBySide :=
  length_runsFrom_strip [] s

/-! ## What is refused -/

/-- **The check for operands side by side** finds a pair exactly if there is one, in a text without a foreign
    character. -/
theorem exists_adjacentOperands_iff {text : String} (halphabet : ∀ c ∈ text.toList, InAlphabet c) :
    (∃ piece, validate text = .error (.adjacentOperands piece)) ↔
      ∃ n ∈ neighbours text.toList, n.sideBySide = true := by
  have hforeign : (trimBlanks text.toList).find? (fun c => !isFormulaChar c) = none := by
    obtain ⟨lead, trail, heq, -⟩ := exists_blanks_trimBlanks text.toList
    refine find?_foreign_eq_none_iff_inAlphabet.mpr fun c hc => halphabet c ?_
    rw [heq]
    exact List.mem_append_left _ (List.mem_append_right _ hc)
  simp only [validate_eq_error_iff]
  rw [← neighbours_trimBlanks]
  constructor
  · rintro ⟨piece, h⟩
    by_contra hpair
    have hside : findOperandsSideBySide (trimBlanks text.toList) = none := by
      refine findOperandsSideBySide_eq_none_iff.mpr fun n hn => ?_
      exact Bool.eq_false_iff.mpr fun hn' => hpair ⟨n, hn, hn'⟩
    simp only [defect?, hforeign, hside] at h
    split at h
    · cases h
    · split at h
      · cases h
      · obtain ⟨side, -, h⟩ := Option.map_eq_some_iff.mp h
        cases h
  · rintro ⟨n, hn, hside⟩
    have hne : trimBlanks text.toList ≠ [] := fun h => by
      rw [h] at hn
      cases hn
    cases hfound : findOperandsSideBySide (trimBlanks text.toList) with
    | none =>
      rw [findOperandsSideBySide_eq_none_iff.mp hfound n hn] at hside
      cases hside
    | some piece => exact ⟨String.ofList piece, by simp only [defect?, if_neg hne, hforeign, hfound]⟩

/-- **Blanks are left out without gluing operands together, exactly where no pair of operands is refused.** In a
    text without a foreign character the operands, the names and the literals that are read are those of the
    text itself, unless it is refused for two operands side by side. If it is refused for this, the operands
    that would be read are others. -/
theorem operands_glued_exactly_if_refused (text : String) (halphabet : ∀ c ∈ text.toList, InAlphabet c) :
    ((∀ piece, validate text ≠ .error (.adjacentOperands piece)) →
      ∀ kind ∈ [isOperandChar, Char.isAlpha, isLiteralChar],
        runs kind (Cursor.start text).text = runs kind text.toList) ∧
    ∀ piece, validate text = .error (.adjacentOperands piece) →
      runs isOperandChar (Cursor.start text).text ≠ runs isOperandChar text.toList := by
  rw [Cursor.text_start]
  refine ⟨fun hvalid kind hkind => ?_, fun piece hrefused hsame => ?_⟩
  · have hpair := mt (exists_adjacentOperands_iff halphabet).mpr fun ⟨piece, h⟩ => hvalid piece h
    refine runs_strip (fun c hc => ?_) fun n hn => Bool.eq_false_iff.mpr fun hn' => hpair ⟨n, hn, hn'⟩
    have hkinds : kind = isOperandChar ∨ kind = Char.isAlpha ∨ kind = isLiteralChar := by simpa using hkind
    rcases hkinds with rfl | rfl | rfl
    · exact hc
    · exact isOperandChar_of_isAlpha hc
    · exact isOperandChar_of_isLiteralChar hc
  · obtain ⟨n, hn, hside⟩ := (exists_adjacentOperands_iff halphabet).mp ⟨piece, hrefused⟩
    have hpos := List.countP_pos_iff.mpr ⟨n, hn, hside⟩
    have hlength := length_runs_strip text.toList
    rw [hsame] at hlength
    omega

/-- The blank between `a` and `1.5` would be lost; where a sign is between them, it is no loss. -/
theorem operands_glued_exactly_if_refused_pair :
    runs isOperandChar (Cursor.start "2*a\t1.5").text ≠ runs isOperandChar "2*a\t1.5".toList ∧
      runs isOperandChar (Cursor.start " 2 * a\n- 1.5 ( ").text =
        runs isOperandChar " 2 * a\n- 1.5 ( ".toList := by
  have halphabet : ∀ text : String, text.toList.all isFormulaChar = true → ∀ c ∈ text.toList, InAlphabet c :=
    fun text h c hc => isFormulaChar_iff_inAlphabet.mp (List.all_eq_true.mp h c hc)
  constructor
  · refine (operands_glued_exactly_if_refused _ (halphabet _ (by decide))).2 "a\t1.5" ?_
    decide +kernel
  · refine (operands_glued_exactly_if_refused _ (halphabet _ (by decide))).1 (fun piece h => ?_) _ (by simp)
    have hvalid : validate " 2 * a\n- 1.5 ( " = .error (.unmatchedParenthesis .opening) := by decide +kernel
    rw [hvalid] at h
    cases h

end Reckoner
