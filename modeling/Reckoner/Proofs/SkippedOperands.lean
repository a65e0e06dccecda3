import Reckoner.Proofs.Validity.ParsingExpressions

/-!
# Operands may be skipped

The search for two operands side by side passes over each operand whole, and so takes time in proportion to the
text. It tries fewer places than a search that goes on by one character, and finds the same.

* `adjacentOperands` — the pattern as an expression; `adjacentOperands_matchesAs`.
* `plainSearch`, `skippingSearch` — the two searches.
* `skipping_finds_the_same` — they have one and the same outcome with every text, which marks the piece that
  `findOperandsSideBySide` finds.
-/

set_option autoImplicit false

namespace Reckoner

open ParsingExpression

/-- Two operands with one or more blanks, and nothing else, between them. -/
def adjacentOperands : ParsingExpression :=
  .marked (.sequence (.sequence (plus (.one isOperandChar)) (plus (.one isBlank))) (plus (.one isOperandChar)))

/-- The search that tries one place after the other. -/
def plainSearch : ParsingExpression :=
  search adjacentOperands any

/-- The search that goes on behind the operand, where it stands in front of one. -/
def skippingSearch : ParsingExpression :=
  search adjacentOperands (.choice (plus (.one isOperandChar)) any)

/-- The expression is the pattern: it takes the same runs, one behind the other. -/
theorem adjacentOperands_matchesAs : MatchesAs adjacentOperands operandsSideBySide := by
  intro s
  unfold Pattern.outcome operandsSideBySide
  split
  · rename_i hfirst
    exact .marked_none (.sequence_first (.sequence_first (parses_plus_one_of_nil hfirst)))
  · rename_i hfirst
    have hoperand := parses_plus_one_of_ne_nil hfirst
    dsimp only
    split
    · rename_i hgap
      exact .marked_none (.sequence_first (.sequence_second hoperand (parses_plus_one_of_nil hgap)))
    · rename_i hgap
      have hblanks := Parses.sequence hoperand (parses_plus_one_of_ne_nil hgap)
      split
      · rename_i hsecond
        exact .marked_none (.sequence_second hblanks (parses_plus_one_of_nil hsecond))
      · rename_i hsecond
        have hpair := Parses.marked (.sequence hblanks (parses_plus_one_of_ne_nil hsecond))
        have htext : s = s.takeWhile isOperandChar ++ (s.dropWhile isOperandChar).takeWhile isBlank ++
            ((s.dropWhile isOperandChar).dropWhile isBlank).takeWhile isOperandChar ++
            ((s.dropWhile isOperandChar).dropWhile isBlank).dropWhile isOperandChar := by
          simp only [List.append_assoc, List.takeWhile_append_dropWhile]
        rw [Option.map_some, (congrArg (List.drop _) htext).trans List.drop_left]
        exact hpair

/-- What both searches report: the match at the leftmost place. -/
def searchOutcome (s : List Char) : Outcome :=
  operandsSideBySide.outcome (operandsSideBySide.firstPlace s)

theorem parses_plainSearch (s : List Char) : Parses plainSearch s (searchOutcome s) :=
  parses_search_any adjacentOperands_matchesAs s

theorem parses_skippingSearch (s : List Char) : Parses skippingSearch s (searchOutcome s) :=
  parses_search_runs adjacentOperands_matchesAs operandsSideBySide_eq_none_of_cons s

theorem searchOutcome_eq (s : List Char) : searchOutcome s = (findOperandsSideBySide s).map fun piece =>
    ([⟨operandsSideBySide.firstPlace s, (operandsSideBySide.firstPlace s).drop piece.length⟩],
      (operandsSideBySide.firstPlace s).drop piece.length) := by
  rw [findOperandsSideBySide_eq_leftmost, Pattern.leftmost_eq_apply_firstPlace]
  rfl

/-- What is marked is the piece that is found, where it stands in the text. -/
theorem exists_piece_of_searchOutcome {s rest : List Char} {spans : List Span}
    (h : searchOutcome s = some (spans, rest)) :
    ∃ before piece, s = before ++ piece ++ rest ∧ spans = [⟨piece ++ rest, rest⟩] ∧
      findOperandsSideBySide s = some piece := by
  rw [searchOutcome_eq] at h
  obtain ⟨piece, hfound, hmarked⟩ := Option.map_eq_some_iff.mp h
  obtain ⟨before, hbefore⟩ := operandsSideBySide.firstPlace_suffix s
  have hmatch : operandsSideBySide (operandsSideBySide.firstPlace s) = some piece := by
    rw [← hfound, findOperandsSideBySide_eq_leftmost, Pattern.leftmost_eq_apply_firstPlace]
  obtain ⟨first, gap, second, behind, heq, rfl, -⟩ := operandsSideBySide_eq_some_iff.mp hmatch
  have hplace : operandsSideBySide.firstPlace s = first ++ gap ++ second ++ behind := by
    rw [heq]
    simp only [List.append_assoc]
  rw [hplace, List.drop_left] at hmarked
  cases hmarked
  exact ⟨before, _, by rw [← hbefore, hplace, List.append_assoc before], rfl, hfound⟩

/-- **Skipping operands finds the same**, for every text: each outcome of the one search is one of the other, and
    there is exactly one. Both fail exactly if no operands side by side are found; and if they match, they have
    marked exactly one span, that of the piece that is found. -/
theorem skipping_finds_the_same (s : List Char) :
    (∀ r, Parses skippingSearch s r ↔ Parses plainSearch s r) ∧ (∃! r, Parses plainSearch s r) ∧
    (Parses plainSearch s none ↔ findOperandsSideBySide s = none) ∧
    ∀ spans rest, Parses plainSearch s (some (spans, rest)) →
      ∃ before piece, s = before ++ piece ++ rest ∧ spans = [⟨piece ++ rest, rest⟩] ∧
        findOperandsSideBySide s = some piece ∧ leftmost operandsSideBySide s = some piece := by
  have hplain : ∀ r, Parses plainSearch s r ↔ r = searchOutcome s := fun r =>
    ⟨fun h => (parses_plainSearch s).unique h, fun h => h ▸ parses_plainSearch s⟩
  have hskipping : ∀ r, Parses skippingSearch s r ↔ r = searchOutcome s := fun r =>
    ⟨fun h => (parses_skippingSearch s).unique h, fun h => h ▸ parses_skippingSearch s⟩
  refine ⟨fun r => (hskipping r).trans (hplain r).symm, ⟨_, parses_plainSearch s, fun r => (hplain r).mp⟩, ?_, ?_⟩
  · rw [hplain, searchOutcome_eq, eq_comm, Option.map_eq_none_iff]
  · intro spans rest h
    obtain ⟨before, piece, hs, hspans, hfound⟩ := exists_piece_of_searchOutcome ((hplain _).mp h).symm
    exact ⟨before, piece, hs, hspans, hfound, findOperandsSideBySide_eq_leftmost s ▸ hfound⟩

/-- The pair that is marked ends at a foreign character, and the one behind it is left out. -/
theorem skipping_finds_the_same_once :
    let s := "ab*1.5 \t c§d e".toList
    Parses skippingSearch s (some ([⟨"1.5 \t c§d e".toList, "§d e".toList⟩], "§d e".toList)) ∧
    findOperandsSideBySide s = some "1.5 \t c".toList := by
  intro s
  have hplain : Parses plainSearch s (some ([⟨"1.5 \t c§d e".toList, "§d e".toList⟩], "§d e".toList)) :=
    parses_plainSearch s
  obtain ⟨hsame, -, -, hmarked⟩ := skipping_finds_the_same s
  obtain ⟨before, piece, -, hspans, hfound, -⟩ := hmarked _ _ hplain
  have hbegins : "1.5 \t c".toList ++ "§d e".toList = piece ++ "§d e".toList :=
    congrArg Span.begins (List.cons.inj hspans).1
  exact ⟨(hsame _).mpr hplain, List.append_cancel_right hbegins ▸ hfound⟩

end Reckoner
