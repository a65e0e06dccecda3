import Reckoner.Proofs.LookedUpNames

/-!
# Blanks between tokens never matter

The checks, the search for names and the descent each have their own way with blanks: the checks cut them off
at the ends and look through them inside, a name ends at one, and the descent never sees any. In a text in
which no blanks stand between two operands all of them treat the text like its stripped form, and so two
texts with the same stripped form alike.

* `validate_stripped` — the checks find the same defect in the text and in its stripped form; only the fragment
  that they quote may have blanks in it.
* `Calculator.evaluate_stripped` — an evaluation does the same to both.
* `blanks_never_matter` — hence any two such texts are alike, and blanks at the ends of a text make no
  difference whatever is in it.
-/

set_option autoImplicit false

namespace Reckoner

/-- The text without its blanks. -/
def stripped (text : String) : String := String.ofList (strip text.toList)

@[simp] theorem toList_stripped (text : String) : (stripped text).toList = strip text.toList :=
  String.toList_ofList

/-- The failure with no blanks in what it quotes of the text. -/
def FormulaError.withoutBlanks : FormulaError → FormulaError
  | .adjacentOperands fragment => .adjacentOperands (stripped fragment)
  | .misplacedOperator fragment => .misplacedOperator (stripped fragment)
  | e => e

/-- Somewhere there is an operand character, then one or more blanks, then an operand character. -/
def OperandsApart (s : List Char) : Prop :=
  ∃ a x gap y b, s = a ++ x :: gap ++ y :: b ∧ isOperandChar x = true ∧ isOperandChar y = true ∧
    gap ≠ [] ∧ ∀ c ∈ gap, isBlank c = true

theorem not_operandsApart_iff {s : List Char} :
    ¬ OperandsApart s ↔ ∀ n ∈ neighbours s, n.sideBySide = false := by
  constructor
  · intro h n hn
    obtain ⟨a, gap, b, heq, hgap, -, -, hapart⟩ := mem_neighbours_iff.mp hn
    rw [Bool.eq_false_iff]
    intro hside
    simp only [Neighbours.sideBySide, Bool.and_eq_true] at hside
    obtain ⟨⟨hap, hleft⟩, hright⟩ := hside
    refine h ⟨a, n.left, gap, n.right, b, heq, hleft, hright, ?_, hgap⟩
    rintro rfl
    rw [hap] at hapart
    cases hapart
  · rintro h ⟨a, x, gap, y, b, heq, hx, hy, hne, hgap⟩
    have hn : (⟨x, true, y⟩ : Neighbours) ∈ neighbours s :=
      mem_neighbours_iff.mpr ⟨a, gap, b, heq, hgap, isBlank_of_isOperandChar hx,
        isBlank_of_isOperandChar hy, by cases gap <;> simp at hne ⊢⟩
    have hside := h _ hn
    simp [Neighbours.sideBySide, hx, hy] at hside

/-! ## The checks -/

theorem trimBlanks_strip (s : List Char) : trimBlanks (strip s) = strip s :=
  trimWhile_eq_self isBlank _ (fun _ hc => (mem_strip.mp (List.mem_of_mem_head? hc)).2)
    fun _ hc => (mem_strip.mp (List.mem_of_mem_getLast? hc)).2

/-- Blanks are no foreign characters. -/
theorem find?_foreign_strip (s : List Char) :
    (strip s).find? (fun c => !isFormulaChar c) = s.find? fun c => !isFormulaChar c := by
  unfold strip
  rw [List.find?_filter]
  congr 1
  funext c
  cases hc : isBlank c with
  | false => simp
  | true => simp [isFormulaChar, hc]

theorem findOperandsSideBySide_strip (s : List Char) : findOperandsSideBySide (strip s) = none := by
  rw [findOperandsSideBySide_eq_none_iff, neighbours_strip]
  intro n hn
  obtain ⟨m, -, rfl⟩ := List.mem_map.mp hn
  rfl

theorem takeWhile_isBlank_strip (s : List Char) : (strip s).takeWhile isBlank = [] := by
  rw [List.takeWhile_eq_nil_iff]
  intro h
  simp [(mem_strip.mp (List.getElem_mem h)).2]

theorem operatorOutOfPlace_strip {c : Char} (hc : isBlank c = false) (s : List Char) :
    operatorOutOfPlace (c :: strip s) = (operatorOutOfPlace (c :: s)).map strip := by
  have hnext : ((strip s).dropWhile isBlank).head? = (s.dropWhile isBlank).head? := by
    rw [← head?_strip, strip_strip, head?_strip]
  have hgap : strip (s.takeWhile isBlank) = [] :=
    strip_eq_nil_iff.mpr fun x hx => List.mem_takeWhile_imp hx
  rw [operatorOutOfPlace_cons, operatorOutOfPlace_cons, hnext, takeWhile_isBlank_strip]
  split
  · cases (s.dropWhile isBlank).head? with
    | none => rfl
    | some d =>
      simp only [Option.bind_some]
      split
      · rename_i hclash
        simp [strip_cons, hgap, hc, isBlank_of_clashes hclash]
      · rfl
  · rfl

/-- **Leaving out blanks keeps the leftmost operator out of place.** -/
theorem findOperatorOutOfPlace_strip (s : List Char) :
    findOperatorOutOfPlace (strip s) = (findOperatorOutOfPlace s).map strip := by
  unfold findOperatorOutOfPlace
  induction s with
  | nil => rfl
  | cons c s ih =>
    rw [strip_cons]
    cases hc : isBlank c with
    | true =>
      -- a blank awaits nothing, so no match begins there
      have hnone : operatorOutOfPlace (c :: s) = none := by
        rw [operatorOutOfPlace_cons, awaitsOperand_of_isBlank hc]
        rfl
      rw [if_pos rfl, ih, leftmost, hnone]
    | false =>
      rw [if_neg (by simp), leftmost, leftmost, operatorOutOfPlace_strip hc, ih]
      cases operatorOutOfPlace (c :: s) <;> rfl

/-- The first defect of the stripped text is that of the text. -/
theorem defect?_strip {s : List Char} (h : ¬ OperandsApart s) :
    defect? (strip s) = (defect? (trimBlanks s)).map FormulaError.withoutBlanks := by
  have hside : findOperandsSideBySide (trimBlanks s) = none := by
    rw [findOperandsSideBySide_eq_none_iff, neighbours_trimBlanks]
    exact not_operandsApart_iff.mp h
  have hforeign := find?_foreign_strip (trimBlanks s)
  have hplace := findOperatorOutOfPlace_strip (trimBlanks s)
  have hbalance := unmatchedFrom?_strip 0 (trimBlanks s)
  rw [strip_trimBlanks] at hforeign hplace hbalance
  unfold defect?
  by_cases hempty : trimBlanks s = []
  · rw [if_pos (trimBlanks_eq_nil_iff.mp hempty), if_pos hempty]
    rfl
  rw [if_neg fun hn => hempty (trimBlanks_eq_nil_iff.mpr hn), if_neg hempty, hforeign, hside,
    findOperandsSideBySide_strip, hplace, unmatched?, unmatched?, hbalance]
  cases (trimBlanks s).find? fun c => !isFormulaChar c with
  | some c => rfl
  | none =>
    cases findOperatorOutOfPlace (trimBlanks s) with
    | some piece => simp [FormulaError.withoutBlanks, stripped]
    | none => cases unmatchedFrom? 0 (trimBlanks s) <;> rfl

/-- **The checks find the same in a text and in its stripped form.** -/
theorem validate_stripped {text : String} (h : ¬ OperandsApart text.toList) :
    validate (stripped text) = (validate text).mapError FormulaError.withoutBlanks :=
  validate_eq_mapError (by rw [toList_stripped, trimBlanks_strip, defect?_strip h])

/-- Blanks at the ends make no difference to the checks, whatever the text is. -/
theorem validate_append_append {lead trail : String} (text : String)
    (hlead : ∀ c ∈ lead.toList, isBlank c = true) (htrail : ∀ c ∈ trail.toList, isBlank c = true) :
    validate (lead ++ text ++ trail) = validate text := by
  unfold validate trimBlanks
  rw [String.toList_append, String.toList_append, trimWhile_append_append isBlank _ hlead htrail]

/-! ## Names and values -/

theorem namesIn_stripped {text : String} (h : ¬ OperandsApart text.toList) :
    namesIn (stripped text) = namesIn text := by
  unfold namesIn
  rw [toList_stripped, runs_strip (fun _ => isOperandChar_of_isAlpha) (not_operandsApart_iff.mp h)]

theorem valueOf_stripped (look : String → Option Float) (text : String) :
    valueOf look (stripped text) = valueOf look text := by
  rw [Evaluation.valueOf_eq, Evaluation.valueOf_eq, toList_stripped, strip_strip]

@[simp] theorem FormulaError.withoutBlanks_withoutBlanks (e : FormulaError) :
    e.withoutBlanks.withoutBlanks = e.withoutBlanks := by
  cases e <;> simp [withoutBlanks, stripped]

namespace Calculator

variable {σ : Type} [ValueSource σ] {text : String}

theorem resolved_stripped (h : ¬ OperandsApart text.toList) (c : Calculator σ) :
    c.resolved (stripped text) = c.resolved text := by
  unfold resolved
  rw [namesIn_stripped h]

/-- **An evaluation does the same to a text and to its stripped form.** -/
theorem evaluate_stripped (h : ¬ OperandsApart text.toList) (c : Calculator σ) :
    (c.evaluate (stripped text)).exchanges = (c.evaluate text).exchanges ∧
      (c.evaluate (stripped text)).calculator = (c.evaluate text).calculator ∧
      (c.evaluate (stripped text)).result.mapError (fun r => r.cause.withoutBlanks) =
        (c.evaluate text).result.mapError (fun r => r.cause.withoutBlanks) := by
  cases hvalid : validate text with
  | error e =>
    have hvalid' : validate (stripped text) = .error e.withoutBlanks := by
      rw [validate_stripped h, hvalid]
      rfl
    rw [evaluate_of_invalid hvalid, evaluate_of_invalid hvalid']
    exact ⟨rfl, rfl, congrArg Except.error e.withoutBlanks_withoutBlanks⟩
  | ok u =>
    have hvalid' : validate (stripped text) = .ok () := by
      rw [validate_stripped h, hvalid]
      rfl
    obtain ⟨hafter, hexchanges⟩ := evaluate_of_valid (c := c) hvalid
    obtain ⟨hafter', hexchanges'⟩ := evaluate_of_valid (c := c) hvalid'
    refine ⟨?_, ?_, ?_⟩
    · rw [hexchanges, hexchanges', resolved_stripped h]
    · rw [hafter, hafter', resolved_stripped h]
    · rw [evaluate_result_of_valid hvalid, evaluate_result_of_valid hvalid',
        resolved_stripped h, valueOf_stripped]
      cases (c.resolved text).outcome with
      | error e => rfl
      | ok u =>
        simp only
        cases valueOf (c.resolved text).table.get? text <;> rfl

end Calculator

/-- **Blanks between tokens never matter**: two texts with the same stripped form, in neither of which blanks
    stand between two operands, are judged alike, up to the blanks in what a failure quotes, have the same
    names, and from the same calculator make the same requests, leave the same calculator and have the same
    value, or fail alike. Blanks at the ends of any text do not even change what is quoted. -/
theorem blanks_never_matter :
    (∀ a b : String, strip a.toList = strip b.toList →
      ¬ OperandsApart a.toList → ¬ OperandsApart b.toList →
      (validate a).mapError FormulaError.withoutBlanks = (validate b).mapError FormulaError.withoutBlanks ∧
      namesIn a = namesIn b ∧
      ∀ (σ : Type) [ValueSource σ] (c : Calculator σ),
        (c.evaluate a).exchanges = (c.evaluate b).exchanges ∧
        (c.evaluate a).calculator = (c.evaluate b).calculator ∧
        (c.evaluate a).result.mapError (fun r => r.cause.withoutBlanks) =
          (c.evaluate b).result.mapError (fun r => r.cause.withoutBlanks)) ∧
    ∀ lead text trail : String, (∀ c ∈ lead.toList, isBlank c = true) →
      (∀ c ∈ trail.toList, isBlank c = true) → validate (lead ++ text ++ trail) = validate text := by
  refine ⟨fun a b hstrip ha hb => ?_, fun lead text trail => validate_append_append text⟩
  have hsame : stripped a = stripped b := congrArg String.ofList hstrip
  refine ⟨?_, ?_, fun σ _ c => ?_⟩
  · rw [← validate_stripped ha, ← validate_stripped hb, hsame]
  · rw [← namesIn_stripped ha, ← namesIn_stripped hb, hsame]
  · obtain ⟨hexchanges, hafter, hresult⟩ := c.evaluate_stripped ha
    obtain ⟨hexchanges', hafter', hresult'⟩ := c.evaluate_stripped hb
    rw [hsame] at hexchanges hafter hresult
    exact ⟨hexchanges.symm.trans hexchanges', hafter.symm.trans hafter', hresult.symm.trans hresult'⟩

/-- The same operator out of place in two texts, and blanks around a text. -/
theorem blanks_never_matter_misplaced :
    ¬ OperandsApart "(x + \t * 2".toList ∧ ¬ OperandsApart " ( x+* 2\n".toList ∧
    strip "(x + \t * 2".toList = strip " ( x+* 2\n".toList ∧
    validate "(x + \t * 2" = .error (.misplacedOperator "+ \t *") ∧
    (validate " ( x+* 2\n").mapError FormulaError.withoutBlanks = .error (.misplacedOperator "+*") ∧
    validate (" \t" ++ "(x + \t * 2" ++ "\r\n") = .error (.misplacedOperator "+ \t *") := by
  have ha : ¬ OperandsApart "(x + \t * 2".toList := not_operandsApart_iff.mpr (by decide +kernel)
  have hb : ¬ OperandsApart " ( x+* 2\n".toList := not_operandsApart_iff.mpr (by decide +kernel)
  have hstrip : strip "(x + \t * 2".toList = strip " ( x+* 2\n".toList := by decide +kernel
  have hinvalid : validate "(x + \t * 2" = .error (.misplacedOperator "+ \t *") := by decide +kernel
  obtain ⟨halike, hends⟩ := blanks_never_matter
  refine ⟨ha, hb, hstrip, hinvalid, ?_, ?_⟩
  · rw [← (halike _ _ hstrip ha hb).1, hinvalid]
    decide +kernel
  · rw [hends _ _ _ (List.all_eq_true.mp rfl) (List.all_eq_true.mp rfl), hinvalid]

end Reckoner
