import Reckoner.Proofs.SkippedOperands
import Reckoner.Validity.Verdict

/-!
# The checks as rules of a grammar

Three of the checks look for a piece of the text. Each is given here as a parsing expression that goes over the text
up to such a piece and marks it; what is marked first is what the check reports.

* `findForeignCharacter`, `skippingSearch`, `findMisplacedOperator` — the three expressions.
* `misplacedOperator_matchesAs` — the third of them looks for the pattern of an operator out of place.
* `Marks` — what an expression marks first. `marks_findForeignCharacter`, `marks_skippingSearch`,
  `marks_findMisplacedOperator`: this is what the searches find.
* `validate_eq_verdict` — the checks, in terms of what the expressions mark.
-/

set_option autoImplicit false

namespace Reckoner

open ParsingExpression

/-! ## The expressions -/

/-- As many characters of formulas as possible, and whatever is behind them. -/
def findForeignCharacter : ParsingExpression :=
  .sequence (many (.one isFormulaChar)) (.marked any)

/-- An operator, and a mark that does not begin an operand. -/
def behindOperator : ParsingExpression :=
  .sequence (.sequence (.one isOperator) (many (.one isBlank)))
    (.choice (.one isInfixOnly) (.one fun c => c == ')'))

/-- An opening parenthesis, and an operator that does not begin an operand. -/
def behindOpening : ParsingExpression :=
  .sequence (.sequence (.one fun c => c == '(') (many (.one isBlank))) (.one isInfixOnly)

/-- What may not follow an operator or an opening parenthesis; blanks may be between. -/
def misplacedOperator : ParsingExpression :=
  .marked (.choice behindOperator behindOpening)

/-- The search that tries one place after the other. -/
def findMisplacedOperator : ParsingExpression :=
  search misplacedOperator any

/-! ## One character, and what is put together from it -/

section Outcomes

variable {e f : ParsingExpression} {s t : List Char} {r : Outcome}

/-- What comes of looking for one character of a kind. -/
def oneOutcome (p : Char → Bool) : List Char → Outcome
  | [] => none
  | c :: s => if p c then some ([], s) else none

theorem parses_one (p : Char → Bool) (s : List Char) : Parses (.one p) s (oneOutcome p s) := by
  cases s with
  | nil => exact .one_end
  | cons c s =>
    cases hp : p c with
    | true =>
      simp only [oneOutcome, hp, if_true]
      exact .one hp
    | false =>
      simp only [oneOutcome, hp]
      exact .one_other hp

/-- One character of either kind. -/
theorem parses_choice_one (p q : Char → Bool) (s : List Char) :
    Parses (.choice (.one p) (.one q)) s (oneOutcome (fun c => p c || q c) s) := by
  cases s with
  | nil => exact .choice_second .one_end .one_end
  | cons c s =>
    cases hp : p c with
    | true =>
      simp only [oneOutcome, hp, Bool.true_or, if_true]
      exact .choice_first (.one hp)
    | false =>
      simp only [oneOutcome, hp, Bool.false_or]
      exact .choice_second (.one_other hp) (parses_one q (c :: s))

/-- Behind a match without marks a second expression decides. -/
theorem Parses.sequence_right (he : Parses e s (some ([], t))) (hf : Parses f t r) :
    Parses (.sequence e f) s r := by
  cases r with
  | none => exact .sequence_second he hf
  | some matched => exact .sequence he hf

theorem Parses.marked_map (h : Parses e s r) :
    Parses (.marked e) s (r.map fun matched => (⟨s, matched.2⟩ :: matched.1, matched.2)) := by
  cases r with
  | none => exact .marked_none h
  | some matched => exact .marked h

end Outcomes

/-! ## Operators out of place -/

/-- A mark, and any blanks behind it. -/
theorem parses_mark_blanks {p : Char → Bool} {c : Char} (hc : p c = true) (s : List Char) :
    Parses (.sequence (.one p) (many (.one isBlank))) (c :: s) (some ([], s.dropWhile isBlank)) :=
  .sequence (.one hc) (parses_many_one isBlank s)

/-- In front of a mark the outcome is a matter of what comes behind the blanks. -/
theorem parses_misplaced_cons (c : Char) (s : List Char) :
    Parses (.choice behindOperator behindOpening) (c :: s)
      (if awaitsOperand c then oneOutcome (clashes c) (s.dropWhile isBlank) else none) := by
  cases hoperator : isOperator c with
  | true =>
    have hclashes : clashes c = fun d => isInfixOnly d || d == ')' := by
      funext d
      rw [clashes, hoperator, Bool.and_true]
    have hopen : (c == '(') = false := by
      rw [beq_eq_false_iff_ne]
      rintro rfl
      cases hoperator
    have hfirst := (parses_mark_blanks hoperator s).sequence_right
      (parses_choice_one isInfixOnly (fun c => c == ')') (s.dropWhile isBlank))
    rw [awaitsOperand, hoperator, Bool.true_or, if_pos rfl, hclashes]
    cases hr : oneOutcome (fun d => isInfixOnly d || d == ')') (s.dropWhile isBlank) with
    | none =>
      rw [hr] at hfirst
      exact .choice_second hfirst (.sequence_first (.sequence_first (.one_other hopen)))
    | some matched =>
      rw [hr] at hfirst
      exact .choice_first hfirst
  | false =>
    refine .choice_second (.sequence_first (.sequence_first (.one_other hoperator))) ?_
    rw [awaitsOperand, hoperator, Bool.false_or]
    cases hopen : c == '(' with
    | true =>
      have hclashes : clashes c = isInfixOnly := by
        funext d
        rw [clashes, hoperator, Bool.and_false, Bool.or_false]
      rw [if_pos rfl, hclashes]
      exact (parses_mark_blanks (p := fun c => c == '(') hopen s).sequence_right (parses_one isInfixOnly _)
    | false => exact .sequence_first (.sequence_first (.one_other hopen))

/-- The expression is the pattern: a mark, the blanks behind it, and the mark that may not follow. -/
theorem misplacedOperator_matchesAs : MatchesAs misplacedOperator operatorOutOfPlace := by
  intro s
  cases s with
  | nil =>
    exact .marked_none (.choice_second (.sequence_first (.sequence_first .one_end))
      (.sequence_first (.sequence_first .one_end)))
  | cons c s =>
    have hmarked : Parses misplacedOperator (c :: s) _ := (parses_misplaced_cons c s).marked_map
    unfold Pattern.outcome
    rw [operatorOutOfPlace_cons]
    cases hawaits : awaitsOperand c with
    | false => simpa [hawaits] using hmarked
    | true =>
      cases hbehind : s.dropWhile isBlank with
      | nil => simpa [hawaits, hbehind, oneOutcome] using hmarked
      | cons d rest =>
        have htext : c :: s = (c :: s.takeWhile isBlank ++ [d]) ++ rest := by
          simp [← hbehind]
        have hdrop : (c :: s).drop (c :: s.takeWhile isBlank ++ [d]).length = rest :=
          (congrArg (List.drop _) htext).trans List.drop_left
        cases hclash : clashes c d with
        | false => simpa [hawaits, hbehind, oneOutcome, hclash] using hmarked
        | true =>
          simp only [hawaits, hbehind, oneOutcome, hclash, if_true, Option.map_some] at hmarked
          simp only [if_true, List.head?_cons, Option.bind_some, hclash, Option.map_some, hdrop]
          exact hmarked

/-! ## What is marked first -/

/-- What is between the two places. -/
def Span.piece (span : Span) : List Char :=
  span.begins.take (span.begins.length - span.ends.length)

/-- The piece that the expression marks first, if it matches. -/
def Marks (e : ParsingExpression) (s : List Char) (piece : Option (List Char)) : Prop :=
  ∃ r : Outcome, Parses e s r ∧ piece = (r.bind fun matched => matched.1.head?).map Span.piece

/-- There is one such piece, or there is none. -/
theorem Marks.unique {e : ParsingExpression} {s : List Char} {piece piece' : Option (List Char)}
    (h : Marks e s piece) (h' : Marks e s piece') : piece' = piece := by
  obtain ⟨r, hr, rfl⟩ := h
  obtain ⟨r', hr', rfl⟩ := h'
  rw [hr.unique hr']

/-- What a search reports is what the pattern finds, given that it finds what is in front. -/
theorem marks_of_parses_outcome {e : ParsingExpression} {p : Pattern} {s : List Char}
    (hp : ∀ t piece, p t = some piece → piece <+: t) (h : Parses e s (p.outcome (p.firstPlace s))) :
    Marks e s (leftmost p s) := by
  refine ⟨_, h, ?_⟩
  rw [Pattern.leftmost_eq_apply_firstPlace, Pattern.outcome]
  cases hfound : p (p.firstPlace s) with
  | none => rfl
  | some piece =>
    obtain ⟨rest, hrest⟩ := hp _ _ hfound
    rw [Option.map_some, ← hrest, List.drop_left]
    simp [Span.piece]

theorem operandsSideBySide_prefix {s piece : List Char} (h : operandsSideBySide s = some piece) : piece <+: s := by
  obtain ⟨first, gap, second, rest, rfl, rfl, -⟩ := operandsSideBySide_eq_some_iff.mp h
  exact ⟨rest, by simp⟩

theorem operatorOutOfPlace_prefix {s piece : List Char} (h : operatorOutOfPlace s = some piece) : piece <+: s := by
  cases s with
  | nil => cases h
  | cons c s =>
    rw [operatorOutOfPlace_cons] at h
    split at h
    · obtain ⟨d, hd, h⟩ := Option.bind_eq_some_iff.mp h
      obtain ⟨rest, hbehind⟩ := List.head?_eq_some_iff.mp hd
      split at h
      · cases h
        exact ⟨rest, by simp [← hbehind]⟩
      · cases h
    · cases h

/-- **The search for two operands side by side** marks what is found. -/
theorem marks_skippingSearch (s : List Char) : Marks skippingSearch s (findOperandsSideBySide s) := by
  rw [findOperandsSideBySide_eq_leftmost]
  exact marks_of_parses_outcome (fun _ _ => operandsSideBySide_prefix) (parses_skippingSearch s)

/-- **The search for an operator out of place** marks what is found. -/
theorem marks_findMisplacedOperator (s : List Char) : Marks findMisplacedOperator s (findOperatorOutOfPlace s) :=
  marks_of_parses_outcome (fun _ _ => operatorOutOfPlace_prefix)
    (parses_search_any misplacedOperator_matchesAs s)

/-- **The search for a foreign character** marks the first one. -/
theorem marks_findForeignCharacter (s : List Char) :
    Marks findForeignCharacter s ((s.find? fun c => !isFormulaChar c).map fun c => [c]) := by
  refine ⟨_, (parses_many_one isFormulaChar s).sequence_right (parses_one _ _).marked_map, ?_⟩
  rw [List.find?_eq_head?_dropWhile_not]
  simp only [Bool.not_not]
  cases s.dropWhile isFormulaChar with
  | nil => rfl
  | cons c rest => simp [oneOutcome, Span.piece]

/-! ## The checks -/

/-- What is said of a text in which these pieces were marked: the checks in their order. -/
def verdict (s : List Char) (foreign adjacent misplaced : Option (List Char)) : Except FormulaError Unit :=
  if s = [] then .error .empty
  else
    match foreign.bind List.head?, adjacent, misplaced, unmatched? s with
    | some c, _, _, _ => .error (.foreignCharacter c)
    | none, some piece, _, _ => .error (.adjacentOperands (String.ofList piece))
    | none, none, some piece, _ => .error (.misplacedOperator (String.ofList piece))
    | none, none, none, some side => .error (.unmatchedParenthesis side)
    | none, none, none, none => .ok ()

/-- **The checks in terms of the expressions**: these go over the text without the blanks at its ends, and what each
    marks first is what its check reports. -/
theorem validate_eq_verdict {text : String} {foreign adjacent misplaced : Option (List Char)}
    (hforeign : Marks findForeignCharacter (trimBlanks text.toList) foreign)
    (hadjacent : Marks skippingSearch (trimBlanks text.toList) adjacent)
    (hmisplaced : Marks findMisplacedOperator (trimBlanks text.toList) misplaced) :
    validate text = verdict (trimBlanks text.toList) foreign adjacent misplaced := by
  obtain rfl := (marks_findForeignCharacter _).unique hforeign
  obtain rfl := (marks_skippingSearch _).unique hadjacent
  obtain rfl := (marks_findMisplacedOperator _).unique hmisplaced
  unfold validate defect? verdict
  by_cases hempty : trimBlanks text.toList = []
  · rw [if_pos hempty, if_pos hempty]
  rw [if_neg hempty, if_neg hempty]
  cases (trimBlanks text.toList).find? fun c => !isFormulaChar c with
  | some c => rfl
  | none =>
    cases findOperandsSideBySide (trimBlanks text.toList) with
    | some piece => rfl
    | none =>
      cases findOperatorOutOfPlace (trimBlanks text.toList) with
      | some piece => rfl
      | none => cases unmatched? (trimBlanks text.toList) <;> rfl

end Reckoner
