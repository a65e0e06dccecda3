import Reckoner.Proofs.Text.Renaming
import Reckoner.Proofs.Validity.Acceptance

/-!
# Other names do not change the judgement

Every check takes a letter for a letter, whichever it is, and never looks at how many of them make up a name.

* `findOperandsSideBySide_replaceRuns` — the same two operands are found, with the other names in them.
* `findOperatorOutOfPlace_replaceRuns`, `unmatchedFrom?_replaceRuns` — these two checks find the very same.
* `validate_renameText` — so a text with other names gets the same answer, in which a quoted pair of operands
  has the other names as well.
-/

set_option autoImplicit false

namespace Reckoner

/-! ## What is true of all letters -/

theorem isFormulaChar_of_isAlpha {c : Char} (h : c.isAlpha = true) : isFormulaChar c = true := by
  simp [isFormulaChar, isOperandChar_of_isAlpha h]

theorem awaitsOperand_of_isAlpha {c : Char} (h : c.isAlpha = true) : awaitsOperand c = false :=
  Bool.eq_false_iff.mpr fun ha => by
    have hoperand := isOperandChar_of_awaitsOperand ha
    rw [isOperandChar_of_isAlpha h] at hoperand
    cases hoperand

theorem clashes_of_isAlpha (c : Char) {d : Char} (h : d.isAlpha = true) : clashes c d = false := by
  refine Bool.eq_false_iff.mpr fun ha => ?_
  simp only [clashes, isInfixOnly, Bool.or_eq_true, Bool.and_eq_true, beq_iff_eq] at ha
  rcases ha with ((rfl | rfl) | rfl) | ⟨rfl, -⟩ <;> revert h <;> decide

theorem uniform_isOperandChar : Uniform Char.isAlpha isOperandChar :=
  Or.inl fun _ => isOperandChar_of_isAlpha

theorem uniform_isBlank : Uniform Char.isAlpha isBlank :=
  Or.inr fun _ => isBlank_of_isAlpha

theorem uniform_isLiteralChar : Uniform Char.isAlpha isLiteralChar :=
  Or.inr fun _ => isLiteralChar_of_isAlpha

variable {f : List Char → List Char} {s : List Char}

/-! ## Each check -/

theorem find?_replaceRuns (hf : KeepsRuns Char.isAlpha f) :
    (replaceRuns Char.isAlpha f s).find? (fun c => !isFormulaChar c) =
      s.find? (fun c => !isFormulaChar c) := by
  have hletters : ∀ w : List Char, (∀ c ∈ w, c.isAlpha = true) →
      w.find? (fun c => !isFormulaChar c) = none := fun w hw =>
    List.find?_eq_none.mpr fun c hc => by simp [isFormulaChar_of_isAlpha (hw c hc)]
  induction s using runInduction Char.isAlpha with
  | nil => rfl
  | other c s hc ih => rw [replaceRuns_cons_of_not _ hc, List.find?_cons, List.find?_cons, ih]
  | run w s hne hw hs ih =>
    rw [replaceRuns_append_run hne hw hs, List.find?_append, List.find?_append, hletters w hw,
      hletters _ (hf w hne hw).2, ih]

theorem unmatchedFrom?_letters {w : List Char} (hw : ∀ c ∈ w, c.isAlpha = true) (opened : Nat) :
    unmatchedFrom? opened (w ++ s) = unmatchedFrom? opened s := by
  induction w with
  | nil => rfl
  | cons c w ih =>
    have hc : c.isAlpha = true := hw c List.mem_cons_self
    rw [List.cons_append, unmatchedFrom?_other, ih fun d hd => hw d (List.mem_cons_of_mem c hd)]
    · rintro rfl
      cases hc
    · rintro rfl
      cases hc

theorem unmatchedFrom?_replaceRuns (hf : KeepsRuns Char.isAlpha f) (opened : Nat) :
    unmatchedFrom? opened (replaceRuns Char.isAlpha f s) = unmatchedFrom? opened s := by
  induction s using runInduction Char.isAlpha generalizing opened with
  | nil => rfl
  | other c s hc ih =>
    rw [replaceRuns_cons_of_not _ hc]
    simp only [unmatchedFrom?, ih]
  | run w s hne hw hs ih =>
    rw [replaceRuns_append_run hne hw hs, unmatchedFrom?_letters hw, unmatchedFrom?_letters (hf w hne hw).2, ih]

/-- What is looked for, without its three nested cases. -/
theorem operandsSideBySide_eq (s : List Char) :
    operandsSideBySide s =
      let behind := s.dropWhile isOperandChar
      let first := s.takeWhile isOperandChar
      let gap := behind.takeWhile isBlank
      let second := (behind.dropWhile isBlank).takeWhile isOperandChar
      if first = [] ∨ gap = [] ∨ second = [] then none else some (first ++ gap ++ second) := by
  unfold operandsSideBySide
  split
  · rename_i hfirst
    simp [hfirst]
  · rename_i hfirst
    simp only
    split
    · rename_i hgap
      simp [hgap]
    · rename_i hgap
      split
      · rename_i hsecond
        simp [hsecond]
      · rename_i hsecond
        rw [if_neg]
        rintro (h | h | h)
        · exact hfirst h
        · exact hgap h
        · exact hsecond h

/-- In front of the text the same two operands match, with the other names in them. -/
theorem operandsSideBySide_replaceRuns (hf : KeepsRuns Char.isAlpha f) :
    operandsSideBySide (replaceRuns Char.isAlpha f s) =
      (operandsSideBySide s).map (replaceRuns Char.isAlpha f) := by
  have hgap : ∀ t : List Char, ∀ c ∈ t.takeWhile isBlank, c.isAlpha = false := fun t c hc =>
    isAlpha_of_isBlank (List.mem_takeWhile_imp hc)
  simp only [operandsSideBySide_eq, takeWhile_replaceRuns hf uniform_isOperandChar,
    dropWhile_replaceRuns hf uniform_isOperandChar, takeWhile_replaceRuns hf uniform_isBlank,
    dropWhile_replaceRuns hf uniform_isBlank, replaceRuns_eq_self (hgap _), replaceRuns_eq_nil_iff hf]
  split
  · rfl
  · rename_i hne
    -- the gap keeps the two operands apart, so that each is renamed by itself
    obtain ⟨c, gap, hc⟩ := List.exists_cons_of_ne_nil fun h => hne (Or.inr (Or.inl h))
    have hbegin : BeginsWithout Char.isAlpha ((s.dropWhile isOperandChar).takeWhile isBlank ++
        ((s.dropWhile isOperandChar).dropWhile isBlank).takeWhile isOperandChar) := by
      rw [hc]
      exact beginsWithout_cons.mpr (hgap _ c (hc ▸ List.mem_cons_self))
    rw [Option.map_some, List.append_assoc, List.append_assoc, replaceRuns_append_of_beginsWithout hbegin,
      replaceRuns_append_of_none (hgap _)]

/-- Where the pattern does not match, the search goes on behind the run or behind the character. -/
theorem leftmostByRuns_of_eq_none {p : Pattern} (q : Char → Bool) {c : Char} (h : p (c :: s) = none) :
    leftmostByRuns p q (c :: s) = leftmostByRuns p q (if q c then (c :: s).dropWhile q else s) := by
  rw [leftmostByRuns.eq_def, h]
  cases hc : q c <;> simp [hc]

/-- **The same two operands** are found. By induction on the length of what is left to search. -/
theorem findOperandsSideBySide_replaceRuns (hf : KeepsRuns Char.isAlpha f) :
    findOperandsSideBySide (replaceRuns Char.isAlpha f s) =
      (findOperandsSideBySide s).map (replaceRuns Char.isAlpha f) := by
  unfold findOperandsSideBySide
  induction hn : s.length using Nat.strongRecOn generalizing s with
  | ind n ih =>
    subst hn
    have hfront := @operandsSideBySide_replaceRuns f s hf
    have hrest := @dropWhile_replaceRuns _ _ f s hf uniform_isOperandChar
    cases hm : operandsSideBySide s with
    | some piece =>
      rw [hm] at hfront
      rw [leftmostByRuns.eq_def, leftmostByRuns.eq_def _ _ s, hfront, hm]
      rfl
    | none =>
      rw [hm] at hfront
      cases s using runInduction Char.isAlpha with
      | nil => rw [replaceRuns_nil, leftmostByRuns.eq_def, hm]; rfl
      | other c t hc =>
        rw [replaceRuns_cons_of_not _ hc] at hfront hrest ⊢
        rw [leftmostByRuns_of_eq_none _ hm, leftmostByRuns_of_eq_none _ hfront, hrest]
        cases hop : isOperandChar c with
        | true => exact ih _ (length_dropWhile_lt hop) rfl
        | false => exact ih _ (by simp) rfl
      | run w t hne hw ht =>
        obtain ⟨hne', hw'⟩ := hf w hne hw
        obtain ⟨a, w, rfl⟩ := List.exists_cons_of_ne_nil hne
        obtain ⟨b, w', hb⟩ := List.exists_cons_of_ne_nil hne'
        have ha : isOperandChar a = true := isOperandChar_of_isAlpha (hw a List.mem_cons_self)
        have hb' : isOperandChar b = true := isOperandChar_of_isAlpha (hw' b (hb ▸ List.mem_cons_self))
        rw [replaceRuns_append_run hne hw ht, hb] at hfront hrest ⊢
        rw [List.cons_append] at hm hfront hrest
        rw [List.cons_append, List.cons_append, leftmostByRuns_of_eq_none _ hm,
          leftmostByRuns_of_eq_none _ hfront, if_pos ha, if_pos hb', hrest]
        exact ih _ (length_dropWhile_lt ha) rfl

theorem operatorOutOfPlace_replaceRuns (hf : KeepsRuns Char.isAlpha f) (c : Char) :
    operatorOutOfPlace (c :: replaceRuns Char.isAlpha f s) = operatorOutOfPlace (c :: s) := by
  have hblanks : replaceRuns Char.isAlpha f (s.takeWhile isBlank) = s.takeWhile isBlank :=
    replaceRuns_eq_self fun c hc => isAlpha_of_isBlank (List.mem_takeWhile_imp hc)
  rw [operatorOutOfPlace_cons, operatorOutOfPlace_cons, takeWhile_replaceRuns hf uniform_isBlank,
    dropWhile_replaceRuns hf uniform_isBlank, hblanks]
  generalize s.dropWhile isBlank = behind
  cases behind using runInduction Char.isAlpha with
  | nil => rfl
  | other d t hd => rw [replaceRuns_cons_of_not _ hd]; rfl
  | run w t hne hw ht =>
    obtain ⟨hne', hw'⟩ := hf w hne hw
    obtain ⟨d, w, rfl⟩ := List.exists_cons_of_ne_nil hne
    obtain ⟨d', w', hd'⟩ := List.exists_cons_of_ne_nil hne'
    rw [replaceRuns_append_run hne hw ht, hd']
    rw [hd'] at hw'
    simp [clashes_of_isAlpha c (hw d List.mem_cons_self), clashes_of_isAlpha c (hw' d' List.mem_cons_self)]

theorem findOperatorOutOfPlace_letters {w : List Char} (hw : ∀ c ∈ w, c.isAlpha = true) :
    findOperatorOutOfPlace (w ++ s) = findOperatorOutOfPlace s := by
  induction w with
  | nil => rfl
  | cons c w ih =>
    have hc : operatorOutOfPlace (c :: (w ++ s)) = none := by
      rw [operatorOutOfPlace_cons, awaitsOperand_of_isAlpha (hw c List.mem_cons_self)]
      rfl
    rw [← ih fun d hd => hw d (List.mem_cons_of_mem c hd), findOperatorOutOfPlace, List.cons_append, leftmost,
      hc]
    rfl

theorem findOperatorOutOfPlace_replaceRuns (hf : KeepsRuns Char.isAlpha f) :
    findOperatorOutOfPlace (replaceRuns Char.isAlpha f s) = findOperatorOutOfPlace s := by
  induction s using runInduction Char.isAlpha with
  | nil => rfl
  | other c s hc ih =>
    unfold findOperatorOutOfPlace at ih ⊢
    rw [replaceRuns_cons_of_not _ hc, leftmost, leftmost, operatorOutOfPlace_replaceRuns hf, ih]
  | run w s hne hw hs ih =>
    rw [replaceRuns_append_run hne hw hs, findOperatorOutOfPlace_letters hw,
      findOperatorOutOfPlace_letters (hf w hne hw).2, ih]

/-! ## All checks -/

/-- The failure with other names in what it quotes. -/
def FormulaError.renamed (r : String → String) : FormulaError → FormulaError
  | .adjacentOperands fragment => .adjacentOperands (renameText r fragment)
  | .undefinedName name => .undefinedName (r name)
  | e => e

theorem defect?_replaceRuns {r : String → String} (hr : ∀ x, IsName x → IsName (r x)) :
    defect? (replaceRuns Char.isAlpha (renameRun r) s) = (defect? s).map (FormulaError.renamed r) := by
  have hf := keepsRuns_renameRun hr
  unfold defect?
  simp only [replaceRuns_eq_nil_iff hf, find?_replaceRuns hf, findOperandsSideBySide_replaceRuns hf,
    findOperatorOutOfPlace_replaceRuns hf, unmatched?, unmatchedFrom?_replaceRuns hf]
  split
  · rfl
  · cases s.find? fun c => !isFormulaChar c with
    | some c => rfl
    | none =>
      cases findOperandsSideBySide s with
      | some piece => simp [FormulaError.renamed, renameText]
      | none =>
        cases findOperatorOutOfPlace s with
        | some piece => rfl
        | none => cases unmatchedFrom? 0 s <;> rfl

/-- **A text with other names gets the same answer**, with the other names in what it quotes. -/
theorem validate_renameText {r : String → String} (hr : ∀ x, IsName x → IsName (r x)) (text : String) :
    validate (renameText r text) = (validate text).mapError (FormulaError.renamed r) := by
  refine validate_eq_mapError ?_
  rw [toList_renameText, trimBlanks_replaceRuns (keepsRuns_renameRun hr) fun _ => isBlank_of_isAlpha,
    defect?_replaceRuns hr]

end Reckoner
