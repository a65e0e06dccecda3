import Reckoner.Proofs.Formula.CommonPrefix
import Reckoner.Proofs.Formula.Completion
import Reckoner.Proofs.FixedValues
import Reckoner.Proofs.RemainingFailures
import Reckoner.Proofs.WaysOfSupply

/-!
# Errors are reported at the earliest point

An evaluation that fails for a character, for a group that is not closed or for the end of the text has read
as far as there was any hope:

* `Calculator.CanComplete` — what was read is the beginning of a text for which the calculator finds a value.
* `Hopeless` — with the next character it is the beginning of no such text, whatever the calculator and its
  source.
* `Calculator.fails_at_earliest_point` — both, for every calculator, every source and every text that passes
  the checks and has values for its names.
-/

set_option autoImplicit false

namespace Reckoner

open Evaluation (HasCompletion Raises)

/-- No calculator finds a value for a text that begins in this way, its blanks left out. -/
def Hopeless (p : List Char) : Prop :=
  ∀ (σ : Type) [ValueSource σ] (c : Calculator σ) (text : String), p <+: strip text.toList →
    ∀ v, (c.evaluate text).result ≠ .ok v

/-- Where a character cannot follow, or a group has to be closed, there is a character ahead. -/
theorem Explained.exists_ahead {p q : List Char} {e : FormulaError} (h : Explained p q e)
    (he : (∃ ch, e = .unexpectedCharacter ch) ∨ e = .unclosedGroup) :
    ∃ ch rest, q = ch :: rest ∧ ∀ d, e = .unexpectedCharacter d → d = ch := by
  rcases he with ⟨d, rfl⟩ | rfl
  · obtain ⟨rest, hrest⟩ := List.head?_eq_some_iff.mp h.1
    exact ⟨d, rest, hrest, fun d' hd' => (FormulaError.unexpectedCharacter.inj hd').symm⟩
  · obtain ⟨⟨-, y, -, hy, -⟩, -⟩ := h
    obtain ⟨rest, hrest⟩ := List.head?_eq_some_iff.mp hy
    exact ⟨y, rest, hrest, fun d' hd' => nomatch hd'⟩

namespace Calculator

variable {σ : Type} [ValueSource σ] {c : Calculator σ} {text : String} {p q : List Char} {ch : Char}
  {e : FormulaError}

/-- The calculator finds a value for a text that begins in this way. -/
def CanComplete (c : Calculator σ) (p : List Char) : Prop :=
  ∃ text v, p <+: text.toList ∧ (c.evaluate text).result = .ok v

/-- A completion in which all names have values needs nothing from the source. -/
theorem canComplete_of_hasCompletion (h : HasCompletion c.table.get? p) : c.CanComplete p := by
  obtain ⟨r, v, hp, ts, t, hd, hw, rfl, hv⟩ := h
  rw [List.append_nil] at hp
  obtain ⟨hvalue, hdepth⟩ := (Tree.compute_eq_ok_iff (Nat.zero_le _)).mp hv
  have hparsed : Parsed (String.ofList (Token.join ts)) t :=
    parsed_of_derives (by simpa using spelled_join hw) hd
  have hknown : ∀ x, (namesIn (String.ofList (Token.join ts))).contains x = true →
      c.table.contains x = true := by
    intro x hx
    have hmem := hparsed.contains_namesIn_iff.mp hx
    exact NameMap.contains_iff.mpr ((Tree.value?_isSome_iff.mp ⟨v, hvalue⟩).2 x hmem)
  have hresult := evaluate_result_of_table hknown c.source
  rw [evaluateWith_of_parsed hparsed hvalue, if_pos (by omega)] at hresult
  exact ⟨_, v, by simpa using hp, hresult⟩

/-- Behind the checks the table afterwards is the one that the failing evaluation used. -/
theorem canComplete_of_raises (hvalid : validate text = .ok ())
    (h : Raises (c.resolved text).table.get? (strip text.toList) e p q)
    (he : (∃ ch, e = .unexpectedCharacter ch) ∨ e = .unclosedGroup ∨ e = .unexpectedEnd) :
    (c.evaluate text).calculator.CanComplete p := by
  apply canComplete_of_hasCompletion
  rw [(evaluate_of_valid hvalid).1]
  exact h.hasCompletion he

theorem hopeless_of_raises {look : String → Option Float} {s : List Char}
    (h : Raises look s e p (ch :: q)) (he : (∃ d, e = .unexpectedCharacter d) ∨ e = .unclosedGroup) :
    Hopeless (p ++ [ch]) := by
  intro τ _ d text hp v hv
  obtain ⟨r, hr⟩ := hp
  obtain ⟨-, -, hvalue⟩ := evaluate_result_eq_ok_iff.mp hv
  rw [Evaluation.valueOf_eq, ← hr, List.append_assoc, List.singleton_append] at hvalue
  split at hvalue
  · cases hvalue
  · rename_i w hread
    exact h.hopeless he _ r w hread
  · cases hvalue

/-- **Errors are reported at the earliest point**, for every calculator, every source and every text that
    passes the checks and has values for its names. What is in front of a character that cannot follow, or
    of the one that stands where a group has to be closed, is the beginning of a text with a value, and no
    text with a value begins with that and the character. A text that ends too early is such a beginning. -/
theorem fails_at_earliest_point (c : Calculator σ) (text : String) (hvalid : validate text = .ok ())
    (hresolved : (c.resolved text).outcome = .ok ()) :
    (∀ r, (c.evaluate text).result = .error r →
      (∃ ch, r.cause = .unexpectedCharacter ch) ∨ r.cause = .unclosedGroup →
      ∃ p ch q, strip text.toList = p ++ ch :: q ∧ (∀ d, r.cause = .unexpectedCharacter d → d = ch) ∧
        (c.evaluate text).calculator.CanComplete p ∧ Hopeless (p ++ [ch])) ∧
    ∀ r, (c.evaluate text).result = .error r → r.cause = .unexpectedEnd →
      (c.evaluate text).calculator.CanComplete (strip text.toList) := by
  refine ⟨fun r h he => ?_, fun r h he => ?_⟩
  · obtain ⟨p, q, htext, hraises, hexplained⟩ := exists_raises_of_error hvalid hresolved h
    obtain ⟨ch, q, rfl, hsame⟩ := hexplained.exists_ahead he
    exact ⟨p, ch, q, htext, hsame, canComplete_of_raises hvalid hraises (he.imp_right Or.inl),
      hopeless_of_raises hraises he⟩
  · obtain ⟨p, q, htext, hraises, hexplained⟩ := exists_raises_of_error hvalid hresolved h
    have hcomplete := canComplete_of_raises hvalid hraises (Or.inr (Or.inr he))
    rw [he] at hexplained
    rwa [htext, hexplained.1, List.append_nil]

/-- Behind an operand no group may begin. -/
theorem fails_at_earliest_point_group :
    let c : Calculator Table := ofSource NameMap.empty
    validate "1 (2)" = .ok () ∧ (c.resolved "1 (2)").outcome = .ok () ∧
      (c.evaluate "1 (2)").result = .error ⟨"1 (2)", .unexpectedCharacter '('⟩ ∧
      (c.evaluate "1 (2)").calculator.CanComplete ['1'] ∧ Hopeless ['1', '('] := by
  intro c
  have hvalid : validate "1 (2)" = .ok () := by decide +kernel
  have hresolved : (c.resolved "1 (2)").outcome = .ok () := rfl
  have hstops : ∀ level, Evaluation.Stops level ['(', '2', ')'] := fun level =>
    Evaluation.stops_of_beginsWithout fun op => by cases op <;> decide
  have hstrip : strip "1 (2)".toList = ['1'] ++ ['(', '2', ')'] := by decide
  have hvalue : valueOf (c.resolved "1 (2)").table.get? "1 (2)" = .error (.unexpectedCharacter '(') := by
    obtain ⟨v, hv⟩ := Evaluation.exists_reads_literal (c.resolved "1 (2)").table.get? 0
    have hread := Evaluation.read_of_reads
      (Evaluation.reads_append_iff.mpr hv.toExpression) (beginsWithout_cons.mpr (by decide))
      (hstops .expression) fun _ => hstops .term
    rw [Evaluation.valueOf_eq, hstrip, hread]
  have hresult : (c.evaluate "1 (2)").result = .error ⟨"1 (2)", .unexpectedCharacter '('⟩ :=
    evaluate_result_eq_error_iff.mpr ⟨rfl, Or.inr ⟨hvalid, Or.inr ⟨hresolved, hvalue⟩⟩⟩
  obtain ⟨p, ch, q, htext, hsame, hcomplete, hhopeless⟩ :=
    (fails_at_earliest_point c "1 (2)" hvalid hresolved).1 _ hresult (Or.inl ⟨_, rfl⟩)
  obtain rfl := hsame _ rfl
  rw [hstrip] at htext
  have hp : p = ['1'] := by
    rcases p with _ | ⟨d, _ | ⟨d', p⟩⟩
    · cases htext
    · rw [← (List.cons.inj htext).1]
    · have hmem : '(' ∈ ['2', ')'] := by
        rw [(List.cons.inj (List.cons.inj htext).2).2]
        simp
      exact absurd hmem (by decide)
  subst hp
  exact ⟨hvalid, hresolved, hresult, hcomplete, hhopeless⟩

end Calculator

end Reckoner
