import Reckoner.CommandLine
import Reckoner.Proofs.AcceptedLanguage
import Reckoner.Proofs.FailureTexts
import Reckoner.Proofs.NameOrder
import Reckoner.Proofs.RequestDiscipline
import Reckoner.Proofs.Supply.ConsoleLines

/-!
# The program from end to end

What a run of the program writes and how it ends, for every input, in terms of the lines of the input, the
grammar and the order of names only. The texts that it writes are spelled out.

* `CommandLine.LineText` — the text on a line; `lineText_iff`: it is what the program takes for the expression.
* `CommandLine.Answered` — the inputs for which there is a value: the first line is a formula, and each of the
  further lines, one for each name, is a numeral.
* `CommandLine.Refused` — what the program has to say about any other input.
* `run_end_to_end` — these are the two ways in which a run ends, and what is written in each; behind the
  answers the input has no influence.
-/

set_option autoImplicit false

namespace Reckoner

/-- The text is a formula of the grammar, its literals are numerals and its depth is within the limit. -/
structure IsFormula (text : String) (tokens : List Token) (tree : Tree) : Prop where
  spelled : Spelled tokens text.toList
  derives : Derives .expression tokens tree
  numerals : ∀ l ∈ tree.literals, isNumeral l = true
  depth_le : tree.depth ≤ 256

namespace Calculator

section Source

variable {σ : Type} [ValueSource σ] {c : Calculator σ} {text : String} {tokens : List Token} {tree : Tree}

/-- What a calculator accepts are the formulas whose names it can resolve. -/
theorem accepts_iff : c.Accepts text tokens tree ↔
    IsFormula text tokens tree ∧ (c.resolved text).outcome = .ok () := by
  constructor
  · intro h
    exact ⟨⟨h.spelled, h.derives, h.numerals, h.depth_le⟩, h.resolved_outcome⟩
  · rintro ⟨h, hresolved⟩
    refine ⟨h.spelled, h.derives, h.numerals, h.depth_le, fun x hx => ?_⟩
    unfold resolved at hresolved
    rw [resolve_outcome_eq_ok_iff, h.derives.namesIn_eq h.spelled] at hresolved
    exact hresolved x (NameSet.contains_ofNames.mpr hx)

end Source

/-- Each request is a prompt. -/
theorem written_evaluate (c : Calculator Console) (text : String) :
    (c.evaluate text).calculator.source.written = c.source.written ++
      String.join (((c.evaluate text).exchanges.map Exchange.name).map Console.prompt) := by
  rw [(c.disciplined text).source_eq, Console.afterAsking_eq]

end Calculator

namespace CommandLine

open Console (GivesAll)

variable {input : Bytes} {line text : String} {tree : Tree} {names : List String} {values : List Float}

/-- The text on a line: what is in front of the carriage returns and newlines at its end. -/
def LineText (line text : String) : Prop :=
  ∃ tail, line.toList = text.toList ++ tail ∧ (∀ c ∈ tail, c = '\r' ∨ c = '\n') ∧
    ∀ c ∈ text.toList.getLast?, c ≠ '\r' ∧ c ≠ '\n'

theorem lineText_iff : LineText line text ↔ text = expressionOfLine line := by
  unfold expressionOfLine
  constructor
  · rintro ⟨tail, hline, htail, hlast⟩
    rw [hline, dropEndWhile_append _ _ (by simpa using htail), dropEndWhile_eq_self _ _ (by simpa using hlast),
      String.ofList_toList]
  · rintro rfl
    obtain ⟨tail, hline, htail⟩ :=
      exists_append_dropEndWhile (fun c => c == '\r' || c == '\n') line.toList
    refine ⟨tail, by rw [String.toList_ofList, ← hline], by simpa using htail, fun c hc => ?_⟩
    rw [String.toList_ofList] at hc
    simpa using endsWithout_dropEndWhile _ _ c hc

/-- What evaluates the expression: it has the further lines to ask. -/
def start (pieces : List Bytes) : Calculator Console :=
  Calculator.ofSource ⟨pieces.tail.flatten, "Enter expression: "⟩

theorem start_lines (input : Bytes) :
    start (lines input) = Calculator.ofSource ⟨(takeLine input).2, openingPrompt⟩ := by
  rw [start, tail_lines, flatten_lines]
  rfl

theorem start_table (pieces : List Bytes) : (start pieces).table = NameMap.empty := rfl

/-- The input in these pieces is a formula on the first line, and on the next lines a value for each of its
    names. -/
structure Answered (pieces : List Bytes) (text : String) (tree : Tree) (names : List String)
    (values : List Float) : Prop where
  expression : ∃ line, decodeUtf8 (pieces.getD 0 []) = some line ∧ LineText line text
  formula : ∃ tokens, IsFormula text tokens tree
  ordered : NamesInOrder text names
  length_eq : values.length = names.length
  given : ∀ (i : Nat) (v : Float), values[i]? = some v → LineAnswers pieces[i + 1]? (.ok v)

/-- What is said of an input without a value: the names that are asked for, the message and its causes. Either the
    first line is no text; or the evaluation fails, having asked for the first of the names. -/
inductive Refused (pieces : List Bytes) : List String → String → List String → Prop
  | undecodable : decodeUtf8 (pieces.getD 0 []) = none →
    Refused pieces [] "stream did not contain valid UTF-8" []
  | rejected {line text : String} {names asked causes : List String} {cause : FormulaError} :
    decodeUtf8 (pieces.getD 0 []) = some line → LineText line text → NamesInOrder text names →
    asked <+: names → ((start pieces).evaluate text).result = .error ⟨text, cause⟩ → cause.Chain causes →
    Refused pieces asked ("Invalid expression: " ++ text) causes

/-! ## Inputs with a value -/

theorem run_of_ok {v : Float} (hline : decodeUtf8 (takeLine input).1 = some line)
    (h : ((start (lines input)).evaluate (expressionOfLine line)).result = .ok v) :
    run input = ⟨((start (lines input)).evaluate (expressionOfLine line)).calculator.source.written ++
      "Result: " ++ Decimal.write v ++ "\n", "", 0, false⟩ := by
  rw [start_lines] at h ⊢
  simp only [run, hline, h]

theorem run_of_error {r : Rejection} (hline : decodeUtf8 (takeLine input).1 = some line)
    (h : ((start (lines input)).evaluate (expressionOfLine line)).result = .error r) :
    run input = ⟨((start (lines input)).evaluate (expressionOfLine line)).calculator.source.written,
      complaintOf r.message r.causes, 1, isStarved r.cause⟩ := by
  rw [start_lines] at h ⊢
  simp only [run, hline, h]

theorem run_of_undecodable (h : decodeUtf8 (takeLine input).1 = none) :
    run input = ⟨openingPrompt, complaintOf malformedUtf8 [], 1, false⟩ := by
  simp only [run, h]

/-- Behind the first line come the lines that answer. -/
theorem Answered.givesAll (h : Answered (lines input) text tree names values) :
    GivesAll (takeLine input).2 values := by
  rw [Console.givesAll_iff, ← tail_lines]
  intro i v hv
  rw [List.getElem?_tail]
  exact h.given i v hv

/-- The requests of a run, if they are all answered. -/
theorem Answered.requests_eq (h : Answered (lines input) text tree names values) :
    (start (lines input)).requests text = answeredWith (names.zip values) := by
  have hasks : askInTurn (start (lines input)).source
      (missing (start (lines input)).table (namesIn text)) = answeredWith (names.zip values) := by
    rw [start_table, missing_empty, ← namesInOrder_iff.mp h.ordered, start_lines]
    exact (Console.askInTurn_eq_ok_iff h.length_eq).mpr h.givesAll
  unfold Calculator.requests
  rw [hasks, untilFailure_eq_self (outcomeOf_answeredWith _)]

theorem Answered.accepts (h : Answered (lines input) text tree names values) :
    ∃ tokens, (start (lines input)).Accepts text tokens tree := by
  obtain ⟨tokens, hformula⟩ := h.formula
  refine ⟨tokens, Calculator.accepts_iff.mpr ⟨hformula, ?_⟩⟩
  rw [Calculator.outcome_resolved, h.requests_eq]
  exact outcomeOf_answeredWith _

/-- **A run with a value.** -/
theorem Answered.run_eq (h : Answered (lines input) text tree names values) :
    ∃ v, tree.value? (NameMap.ofList (names.zip values)).get? = some v ∧
      run input = ⟨openingPrompt ++ String.join (names.map Console.prompt) ++ "Result: " ++
        Decimal.write v ++ "\n", "", 0, false⟩ := by
  obtain ⟨tokens, haccepts⟩ := h.accepts
  obtain ⟨line, hline, htext⟩ := h.expression
  rw [getD_lines_zero] at hline
  obtain rfl := lineText_iff.mp htext
  obtain ⟨v, hv⟩ := haccepts.value?_isSome
  have hwritten := Calculator.written_evaluate (start (lines input)) (expressionOfLine line)
  rw [Calculator.exchanges_of_valid haccepts.valid, h.requests_eq, map_name_answeredWith,
    List.map_fst_zip h.length_eq.ge] at hwritten
  refine ⟨v, ?_, ?_⟩
  · rw [Calculator.table_resolved, h.requests_eq, start_table, store_answeredWith] at hv
    exact hv
  · rw [run_of_ok hline (haccepts.result_eq_ok_iff.mpr hv), hwritten]
    rfl

/-- Where there is a value, the input is a formula and its answers. -/
theorem exists_answered_of_ok {v : Float} (hline : decodeUtf8 (takeLine input).1 = some line)
    (h : ((start (lines input)).evaluate (expressionOfLine line)).result = .ok v) :
    ∃ text tree names values, Answered (lines input) text tree names values := by
  obtain ⟨tokens, tree, haccepts⟩ := Calculator.exists_accepts_of_ok h
  obtain ⟨hformula, hresolved⟩ := Calculator.accepts_iff.mp haccepts
  rw [Calculator.outcome_resolved_eq_ok_iff, start_table, missing_empty, start_lines] at hresolved
  obtain ⟨values, hlength, hvalues⟩ := Console.exists_givesAll hresolved
  refine ⟨_, tree, _, values, ⟨line, by rw [getD_lines_zero, hline], lineText_iff.mpr rfl⟩, ⟨tokens, hformula⟩,
    namesInOrder_namesIn _, hlength, fun i v hv => ?_⟩
  rw [← List.getElem?_tail, tail_lines]
  exact Console.givesAll_iff.mp hvalues i v hv

/-- Only the first line and one line for each name are looked at. -/
theorem Answered.of_take_eq {pieces pieces' : List Bytes} (h : Answered pieces text tree names values)
    (heq : pieces'.take (names.length + 1) = pieces.take (names.length + 1)) :
    Answered pieces' text tree names values := by
  have hsame : ∀ i < names.length + 1, pieces'[i]? = pieces[i]? := by
    intro i hi
    rw [← List.getElem?_take_of_lt hi, heq, List.getElem?_take_of_lt hi]
  refine ⟨?_, h.formula, h.ordered, h.length_eq, fun i v hv => ?_⟩
  · rw [List.getD_eq_getElem?_getD, hsame 0 (Nat.succ_pos _), ← List.getD_eq_getElem?_getD]
    exact h.expression
  · obtain ⟨hi, -⟩ := List.getElem?_eq_some_iff.mp hv
    rw [hsame (i + 1) (by have := h.length_eq; omega)]
    exact h.given i v hv

theorem Answered.run_congr {input' : Bytes} (h : Answered (lines input) text tree names values)
    (heq : (lines input').take (names.length + 1) = (lines input).take (names.length + 1)) :
    run input' = run input := by
  obtain ⟨v, hv, hrun⟩ := h.run_eq
  obtain ⟨w, hw, hrun'⟩ := (h.of_take_eq heq).run_eq
  rw [hv] at hw
  cases hw
  rw [hrun, hrun']

/-! ## Other inputs -/

/-- **A run without a value.** -/
theorem exists_refused (h : ¬ ∃ text tree names values, Answered (lines input) text tree names values) :
    (run input).exitCode = 1 ∧ ∃ asked message causes, Refused (lines input) asked message causes ∧
      (run input).output = openingPrompt ++ String.join (asked.map Console.prompt) ∧
      (run input).complaint = complaintOf message causes := by
  cases hline : decodeUtf8 (takeLine input).1 with
  | none =>
    rw [run_of_undecodable hline]
    exact ⟨rfl, [], _, [], .undecodable (by rw [getD_lines_zero, hline]), (String.append_empty).symm, rfl⟩
  | some line =>
    cases hresult : ((start (lines input)).evaluate (expressionOfLine line)).result with
    | ok v => exact absurd (exists_answered_of_ok hline hresult) h
    | error r =>
      obtain ⟨expression, cause⟩ := r
      obtain rfl : expression = expressionOfLine line := (Calculator.evaluate_result_eq_error_iff.mp hresult).1
      have hasked := Calculator.map_name_exchanges_prefix (start (lines input)) (expressionOfLine line)
      rw [start_table, missing_empty] at hasked
      rw [run_of_error hline hresult, Calculator.written_evaluate]
      exact ⟨rfl, _, _, _, .rejected (by rw [getD_lines_zero, hline]) (lineText_iff.mpr rfl)
        (namesInOrder_namesIn _) hasked hresult (FormulaError.chain_iff.mpr rfl), rfl, rfl⟩

/-! ## Every input -/

/-- **The program from end to end**, for every input. Let the input be cut behind each newline. The run ends with
    code 0 exactly if the first line is a formula and the next lines, one for each of its names in the order of
    their bytes, are numerals. It then has written its prompts in that order and the value of the formula with
    these values for its names, has complained of nothing, and has not looked at the lines behind. In every other
    case it ends with code 1, having prompted for some first ones of the names, and complains with a message and
    its causes. -/
theorem run_end_to_end (input : Bytes) : ∃ pieces, Cut input pieces ∧
    ((run input).exitCode = 0 ↔ ∃ text tree names values, Answered pieces text tree names values) ∧
    (∀ text tree names values, Answered pieces text tree names values →
      (∃ v, tree.value? (NameMap.ofList (names.zip values)).get? = some v ∧
        (run input).output = "Enter expression: " ++
          String.join (names.map fun name => "Enter value for variable " ++ name ++ ": ") ++ "Result: " ++
          Decimal.write v ++ "\n" ∧
        (run input).complaint = "") ∧
      ∀ input' pieces', Cut input' pieces' →
        pieces'.take (names.length + 1) = pieces.take (names.length + 1) → run input' = run input) ∧
    ((run input).exitCode ≠ 0 → (run input).exitCode = 1 ∧
      ∃ asked message causes, Refused pieces asked message causes ∧
        (run input).output = "Enter expression: " ++
          String.join (asked.map fun name => "Enter value for variable " ++ name ++ ": ") ∧
        (run input).complaint = message ++ "\n" ++
          String.join (causes.map fun cause => "  caused by: " ++ cause ++ "\n")) := by
  refine ⟨lines input, cut_lines input, ?_⟩
  by_cases h : ∃ text tree names values, Answered (lines input) text tree names values
  · have hcode : (run input).exitCode = 0 := by
      obtain ⟨text, tree, names, values, hanswered⟩ := h
      obtain ⟨v, -, hrun⟩ := hanswered.run_eq
      rw [hrun]
    refine ⟨iff_of_true hcode h, fun text tree names values hanswered =>
      ⟨?_, fun input' pieces' hcut heq => ?_⟩, fun hne => absurd hcode hne⟩
    · obtain ⟨v, hv, hrun⟩ := hanswered.run_eq
      exact ⟨v, hv, by rw [hrun]; rfl, by rw [hrun]⟩
    · rw [hcut.eq_lines] at heq
      exact hanswered.run_congr heq
  · obtain ⟨hcode, hrefused⟩ := exists_refused h
    refine ⟨iff_of_false (by rw [hcode]; decide) h, fun text tree names values hanswered => ?_,
      fun _ => ⟨hcode, hrefused⟩⟩
    exact absurd ⟨text, tree, names, values, hanswered⟩ h

theorem isFormula_double : IsFormula "2 * x" [.literal ['2'], .operation .mul, .name ['x']]
    (.operation .mul (.literal ['2']) (.name ['x'])) where
  spelled := spelled_of_strip_eq_join (by simp [WellFormed, Token.wellFormed]; decide)
    (by decide) (by decide)
  derives := .expression (@Derives.chain .mul _ _ _ _ (.term (.literal _)) (.name _))
  numerals := by decide
  depth_le := by decide

theorem answered_double : Answered [utf8Bytes "2 * x\r\n", utf8Bytes " 3\n", utf8Bytes "more"] "2 * x"
    (.operation .mul (.literal ['2']) (.name ['x'])) ["x"] [3] where
  expression := ⟨"2 * x\r\n", decodeUtf8_toUTF8 _, lineText_iff.mpr rfl⟩
  formula := ⟨_, isFormula_double⟩
  ordered := namesInOrder_iff.mpr (by decide +kernel)
  length_eq := rfl
  given := by
    rintro (_ | i) v hv
    · cases hv
      exact .value (decodeUtf8_toUTF8 " 3\n") (trimmed_iff.mpr rfl) (by decide +kernel)
    · cases hv

/-- A formula, the answer to its one request, and a line that is not read; the formula without the answer; and
    a line that is no text. -/
theorem run_end_to_end_double :
    let input := utf8Bytes "2 * x\r\n 3\nmore"
    ((run input).exitCode = 0 ∧
      (run input).output = "Enter expression: Enter value for variable x: Result: 6.0\n" ∧
      (run input).complaint = "" ∧ run (utf8Bytes "2 * x\r\n 3\n") = run input) ∧
    ((run (utf8Bytes "2 * x\n")).exitCode = 1 ∧
      (run (utf8Bytes "2 * x\n")).complaint = "Invalid expression: 2 * x\n" ++
        "  caused by: Could not obtain a value for variable x\n" ++
        "  caused by: input ended before a value was supplied\n") ∧
    (run [255]).exitCode = 1 ∧ (run [255]).output = "Enter expression: " ∧
      (run [255]).complaint = "stream did not contain valid UTF-8\n" := by
  intro input
  have hlines : lines input = [utf8Bytes "2 * x\r\n", utf8Bytes " 3\n", utf8Bytes "more"] := by
    decide +kernel
  have hlines' : lines (utf8Bytes "2 * x\n") = [utf8Bytes "2 * x\n"] := by decide +kernel
  refine ⟨?_, ?_, ?_⟩
  · obtain ⟨pieces, hcut, hcode, hvalue, -⟩ := run_end_to_end input
    obtain rfl := hcut.eq_lines.trans hlines
    obtain ⟨⟨v, hv, houtput, hcomplaint⟩, hcongr⟩ := hvalue _ _ _ _ answered_double
    obtain rfl : (6 : Float) = v := by
      rw [show (Tree.operation .mul (.literal ['2']) (.name ['x'])).value?
        (NameMap.ofList (["x"].zip [(3 : Float)])).get? = some 6 by decide +kernel] at hv
      exact Option.some.inj hv
    refine ⟨hcode.mpr ⟨_, _, _, _, answered_double⟩, houtput.trans (by decide +kernel), hcomplaint, ?_⟩
    exact hcongr _ _ (cut_lines _) (by decide +kernel)
  · obtain ⟨pieces, hcut, -, -, hfails⟩ := run_end_to_end (utf8Bytes "2 * x\n")
    obtain rfl := hcut.eq_lines.trans hlines'
    obtain ⟨hcode, asked, message, causes, hrefused, -, hcomplaint⟩ := hfails (by decide +kernel)
    refine ⟨hcode, hcomplaint.trans ?_⟩
    cases hrefused with
    | undecodable hnone => cases hnone.symm.trans (decodeUtf8_toUTF8 "2 * x\n")
    | @rejected line text _ _ _ cause hline htext _ _ hresult hchain =>
      cases hline.symm.trans (decodeUtf8_toUTF8 "2 * x\n")
      obtain rfl : text = "2 * x" := lineText_iff.mp htext
      have hcause : ((start [utf8Bytes "2 * x\n"]).evaluate "2 * x").result =
          .error ⟨"2 * x", .unavailable "x" .exhausted⟩ := by decide +kernel
      cases hresult.symm.trans hcause
      cases hchain with
      | unavailable _ hchain =>
        cases hchain
        decide
  · obtain ⟨pieces, hcut, -, -, hfails⟩ := run_end_to_end [255]
    obtain ⟨hcode, asked, message, causes, hrefused, houtput, hcomplaint⟩ := hfails (by decide +kernel)
    have hnone : decodeUtf8 (pieces.getD 0 []) = none := by
      rw [hcut.eq_lines, getD_lines_zero]
      decide +kernel
    cases hrefused with
    | undecodable _ => exact ⟨hcode, houtput, hcomplaint⟩
    | rejected hline _ _ _ _ _ => cases hnone.symm.trans hline

end CommandLine

end Reckoner
