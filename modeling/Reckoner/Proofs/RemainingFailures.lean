import Reckoner.Proofs.LookedUpNames

/-!
# What can still go wrong behind the checks

A text that passes the checks need not be a formula. `remaining_failures`: how the evaluation of such a
text can fail once all its names have values, each failure with the place in the stripped text where it
arises and with what stands there. The checks leave open a chain that ends in an operator, one that begins
with one, an empty group, operands or groups that touch, malformed literals and too deep a nesting.
-/

set_option autoImplicit false

namespace Reckoner

open Evaluation (Called Raises read)

/-! ## What the checks say about a place in the text -/

section Acceptable

variable {s₀ p q : List Char} {x y : Char}

theorem Acceptable.closes_le (h : Acceptable s₀) (hs : strip s₀ = p ++ q) :
    p.count ')' ≤ p.count '(' :=
  h.balanced.closes_le p ⟨q, hs.symm⟩

/-- The characters of a text without blanks. -/
theorem Acceptable.mark_cases (h : Acceptable s₀) (hx : x ∈ strip s₀) :
    isOperandChar x = true ∨ isOperator x = true ∨ x = '(' ∨ x = ')' := by
  have hformula := h.formulaChars x hx
  simp only [isFormulaChar, (mem_strip.mp hx).2, Bool.or_false, Bool.or_eq_true, beq_iff_eq] at hformula
  rcases hformula with ((h | h) | h) | h <;> simp [h]

theorem Acceptable.mayFollow (h : Acceptable s₀) (hs : strip s₀ = p ++ x :: y :: q) : mayFollow x y := by
  obtain ⟨n, hn, rfl, rfl⟩ := exists_neighbours_of_strip hs
  exact h.noClash n hn

end Acceptable

/-! ## Failures and their places -/

/-- At this place an operand or a group begins directly behind another. -/
def Touch (p q : List Char) : Prop :=
  ∃ x y, x ∈ p.getLast? ∧ y ∈ q.head? ∧ endsOperand x = true ∧ (isOperandChar y = true ∨ y = '(')

/-- What is around the place, `p` before and `q` after it, where the evaluation fails with this cause. -/
def Explained (p q : List Char) : FormulaError → Prop
  | .malformedLiteral literal _ =>
    literal.toList ∈ runs isLiteralChar (p ++ q) ∧
      ((∀ c ∈ literal.toList, c.isDigit = false) ∨ 2 ≤ literal.toList.count '.')
  | .tooDeep limit => limit = maxDepth
  | .unexpectedEnd => q = [] ∧ ∃ c ∈ p.getLast?, isOperator c = true
  | .unexpectedCharacter c =>
    c ∈ q.head? ∧ c ≠ '-' ∧ (isInfixOnly c = true → p = []) ∧ (c = ')' → ['(', ')'] <:+: p ++ q) ∧
      (isInfixOnly c = false → c ≠ ')' → Touch p q ∧ p.count '(' = p.count ')')
  | .unclosedGroup => Touch p q ∧ p.count ')' < p.count '('
  | _ => False

theorem isNumeral_eq_false_iff {l : List Char} :
    isNumeral l = false ↔ (∀ c ∈ l, c.isDigit = false) ∨ 2 ≤ l.count '.' := by
  unfold isNumeral
  rw [Bool.and_eq_false_iff, List.any_eq_false, decide_eq_false_iff_not, Nat.not_le]
  simp only [Bool.not_eq_true]
  exact Iff.rfl

section Places

variable {look : String → Option Float} {s₀ p q : List Char}

/-- What an expression was read from ends an operand, and closes all groups that it opens. -/
theorem operand_of_read {depth : Nat} {r s : List Char} {v : Float}
    (h : read look (.due .expression) depth (r ++ s) = .ok (v, s)) :
    (∃ x ∈ r.getLast?, endsOperand x = true) ∧ r.count ')' = r.count '(' := by
  obtain ⟨ts, t, hd, hw, hs, -⟩ := Evaluation.reads_of_read h
  rw [List.append_cancel_right hs]
  obtain ⟨s', x, hend, hx⟩ := hd.join_ends hw
  exact ⟨⟨x, by rw [hend]; simp, hx⟩, (hd.balanced hw).closes_eq⟩

/-- What comes behind an expression begins no operator, and so closes a group or touches it. -/
theorem touch_of_read (ha : Acceptable s₀) {depth : Nat} {r s : List Char} {y : Char} {v : Float}
    (hr : r <:+ p) (hy : y ∈ strip s₀) (hclose : y ≠ ')')
    (h : read look (.due .expression) depth (r ++ y :: s) = .ok (v, y :: s)) : Touch p (y :: s) := by
  obtain ⟨⟨x, hx, hend⟩, -⟩ := operand_of_read h
  obtain ⟨hexpression, hterm⟩ := Evaluation.stops_of_read h
  obtain ⟨front, rfl⟩ := hr
  refine ⟨x, y, ?_, by simp, hend, ?_⟩
  · rw [List.getLast?_append, Option.mem_def.mp hx]
    rfl
  · rcases ha.mark_cases hy with hoperand | hoperator | hopen | hclose'
    · exact Or.inl hoperand
    · have hstops : ∀ op : Operation, y ≠ op.mark := by
        intro op
        cases op with
        | add | sub => exact Evaluation.stops_cons.mp hexpression _ rfl
        | mul | div => exact Evaluation.stops_cons.mp hterm _ rfl
      simp only [isOperator, isInfixOnly, Bool.or_eq_true, beq_iff_eq] at hoperator
      rcases hoperator with ((h | h) | h) | h
      · exact absurd h (hstops .add)
      · exact absurd h (hstops .mul)
      · exact absurd h (hstops .div)
      · exact absurd h (hstops .sub)
    · exact Or.inr hopen
    · exact absurd hclose' hclose

theorem explained_missingOperand (ha : Acceptable s₀) {depth : Nat}
    (h : Called look (strip s₀) (.due .factor) depth p []) : Explained p [] .unexpectedEnd := by
  have htext := h.text_eq
  refine ⟨rfl, ?_⟩
  rcases h.behind_of_due with rfl | ⟨p', x, rfl, hx⟩
  · exact absurd htext ha.nonempty
  · simp only [awaitsOperand, Bool.or_eq_true, beq_iff_eq] at hx
    rcases hx with hx | rfl
    · exact ⟨x, by simp, hx⟩
    · -- a group that is opened at the end is never closed
      rw [List.append_nil] at htext
      have hle := ha.closes_le htext
      have heq := ha.balanced.closes_eq
      rw [htext, List.count_append, List.count_append] at heq
      simp at heq
      omega

theorem explained_literal {depth : Nat} {c : Char} {s : List Char} {e : FormulaError}
    (hc : isLiteralChar c = true) (h : Called look (strip s₀) (.due .factor) depth p (c :: s))
    (he : literalValue ((c :: s).takeWhile isLiteralChar) = .error e) : Explained p (c :: s) e := by
  have hchars : ∀ d ∈ (c :: s).takeWhile isLiteralChar, isLiteralChar d = true :=
    fun d hd => List.mem_takeWhile_imp hd
  obtain ⟨hnumeral, flaw, rfl⟩ := literalValue_eq_error hchars he
  have hrun := h.takeWhile_mem_runs (fun _ => isOperandChar_of_isLiteralChar) hc
  rw [h.text_eq] at hrun
  refine ⟨?_, ?_⟩
  · rw [String.toList_ofList]
    exact hrun
  · rw [String.toList_ofList]
    exact isNumeral_eq_false_iff.mp hnumeral

theorem explained_character (ha : Acceptable s₀) {depth : Nat} {c : Char} {s : List Char}
    (hc : beginsFactor c = false) (h : Called look (strip s₀) (.due .factor) depth p (c :: s)) :
    Explained p (c :: s) (.unexpectedCharacter c) := by
  have htext := h.text_eq
  simp only [beginsFactor, Bool.or_eq_false_iff, beq_eq_false_iff_ne] at hc
  obtain ⟨⟨hoperand, hopen⟩, hminus⟩ := hc
  have hkind : isInfixOnly c = true ∨ c = ')' := by
    rcases ha.mark_cases (htext ▸ by simp : c ∈ strip s₀) with h | h | h | h
    · rw [hoperand] at h
      cases h
    · exact Or.inl (by simpa [isOperator, hminus] using h)
    · exact absurd h hopen
    · exact Or.inr h
  refine ⟨by simp, hminus, ?_, ?_, ?_⟩
  · intro hbetween
    rcases h.behind_of_due with rfl | ⟨p', x, rfl, hx⟩
    · rfl
    · have hfollow : mayFollow x c := ha.mayFollow (by simpa using htext)
      simp [mayFollow, clashes, hx, hbetween] at hfollow
  · rintro rfl
    rcases h.behind_of_due with rfl | ⟨p', x, rfl, hx⟩
    · have hle := ha.balanced.closes_le [')'] (by rw [htext]; simp)
      simp at hle
    · have hfollow : mayFollow x ')' := ha.mayFollow (by simpa using htext)
      have hx' : x = '(' := by
        simp only [mayFollow, clashes, hx, Bool.true_and, Bool.or_eq_false_iff, beq_self_eq_true] at hfollow
        simpa [awaitsOperand, hfollow.2] using hx
      subst hx'
      exact ⟨p', s, by simp⟩
  · intro hbetween hclose
    rcases hkind with h | h
    · rw [hbetween] at h
      cases h
    · exact absurd h hclose

theorem explained_unclosed (ha : Acceptable s₀) {depth : Nat} {r s : List Char} {v : Float}
    (hs : s.head? ≠ some ')') (h : Called look (strip s₀) (.due .factor) depth p ('(' :: (r ++ s)))
    (hx : read look (.due .expression) (depth + 1) (r ++ s) = .ok (v, s)) :
    Explained (p ++ '(' :: r) s .unclosedGroup := by
  have htext := h.text_eq
  have hle := ha.closes_le htext
  have hcount := (operand_of_read hx).2
  have hdepth : (p ++ '(' :: r).count ')' < (p ++ '(' :: r).count '(' := by
    rw [List.count_append, List.count_append]
    simp
    omega
  refine ⟨?_, hdepth⟩
  cases s with
  | nil =>
    -- at the end of the text no group is open
    have heq := ha.balanced.closes_eq
    rw [htext, List.append_nil] at heq
    omega
  | cons y s =>
    exact touch_of_read ha ⟨p ++ ['('], by simp⟩ (htext ▸ by simp) (by simpa using hs) hx

theorem explained_trailing (ha : Acceptable s₀) {c : Char} {s : List Char} {v : Float}
    (htext : strip s₀ = p ++ c :: s)
    (hx : read look (.due .expression) 0 (strip s₀) = .ok (v, c :: s)) :
    Explained p (c :: s) (.unexpectedCharacter c) := by
  rw [htext] at hx
  have hcount := (operand_of_read hx).2
  have hclose : c ≠ ')' := by
    rintro rfl
    have hle := ha.closes_le (htext.trans (List.append_cons p ')' s))
    rw [List.count_append, List.count_append] at hle
    simp at hle
    omega
  have htouch := touch_of_read ha (List.suffix_refl p) (htext ▸ by simp) hclose hx
  have hbegins : isOperandChar c = true ∨ c = '(' := by
    obtain ⟨_, y, -, hy, -, hbegins⟩ := htouch
    simp only [List.head?_cons, Option.mem_some_iff] at hy
    exact hy ▸ hbegins
  refine ⟨by simp, ?_, ?_, fun h => absurd h hclose, fun _ _ => ⟨htouch, hcount.symm⟩⟩
  · rintro rfl
    exact absurd hbegins (by decide)
  · intro hbetween
    simp only [isInfixOnly, Bool.or_eq_true, beq_iff_eq] at hbetween
    rcases hbetween with (rfl | rfl) | rfl <;> exact absurd hbegins (by decide)

end Places

namespace Calculator

variable {σ : Type} [ValueSource σ] {c : Calculator σ} {text : String}

/-- With values for all names every way to fail has its explanation. -/
theorem explained_of_raises (hvalid : validate text = .ok ())
    (hresolved : (c.resolved text).outcome = .ok ()) {p q : List Char} {e : FormulaError}
    (h : Raises (c.resolved text).table.get? (strip text.toList) e p q) : Explained p q e := by
  have ha := validate_eq_ok_iff.mp hvalid
  cases h with
  | missingOperand h => exact explained_missingOperand ha h
  | literal hc h he => exact explained_literal hc h he
  | name hc h hnone =>
    obtain ⟨v, hv⟩ := NameMap.contains_iff.mp
      (contains_resolved_of_looksUp hvalid hresolved ⟨_, _, _, _, h, hc, rfl⟩)
    rw [hnone] at hv
    cases hv
  | deep _ _ _ => rfl
  | character hc h => exact explained_character ha hc h
  | unclosed hs _ h hx => exact explained_unclosed ha hs h hx
  | trailing htext hx => exact explained_trailing ha htext hx

/-- A formula does not begin with an operator between operands. -/
theorem valueOf_of_head_infixOnly {look : String → Option Float} {mark : Char}
    (hmark : isInfixOnly mark = true) (h : (strip text.toList).head? = some mark) :
    valueOf look text = .error (.unexpectedCharacter mark) := by
  have hbegins : beginsFactor mark = false := by
    simp only [isInfixOnly, Bool.or_eq_true, beq_iff_eq] at hmark
    rcases hmark with (rfl | rfl) | rfl <;> decide
  obtain ⟨s, hs⟩ : ∃ s, strip text.toList = mark :: s := by
    cases hs : strip text.toList with
    | nil => rw [hs] at h; cases h
    | cons d s => rw [hs] at h; cases h; exact ⟨s, rfl⟩
  have hterm : Called look (strip text.toList) (.due .term) 0 [] (mark :: s) := by
    rw [← hs]
    exact .first (by decide) .start
  have hcall : Called look (strip text.toList) (.due .factor) 0 [] (mark :: s) :=
    .first (by decide) hterm
  rw [Evaluation.valueOf_eq, hcall.propagates (Evaluation.read_factor_other hbegins)]

/-- Behind the checks, and with values for all names, a failure is raised somewhere, and explained there. -/
theorem exists_raises_of_error (hvalid : validate text = .ok ())
    (hresolved : (c.resolved text).outcome = .ok ()) {r : Rejection}
    (h : (c.evaluate text).result = .error r) :
    ∃ p q, strip text.toList = p ++ q ∧
      Raises (c.resolved text).table.get? (strip text.toList) r.cause p q ∧ Explained p q r.cause := by
  rw [evaluate_result_eq_error_iff, hvalid, hresolved] at h
  obtain ⟨p, q, hraises⟩ := Evaluation.exists_raises (by simpa using h.2)
  exact ⟨p, q, hraises.text_eq, hraises, explained_of_raises hvalid hresolved hraises⟩

/-- **What can still go wrong behind the checks**, for every calculator, every source and every text. -/
theorem remaining_failures (c : Calculator σ) (text : String) (hvalid : validate text = .ok ())
    (hresolved : (c.resolved text).outcome = .ok ()) :
    (∀ r, (c.evaluate text).result = .error r → r.expression = text ∧
      ∃ p q, strip text.toList = p ++ q ∧
        Raises (c.resolved text).table.get? (strip text.toList) r.cause p q ∧ Explained p q r.cause) ∧
    ∀ mark, isInfixOnly mark = true →
      ((c.evaluate text).result = .error ⟨text, .unexpectedCharacter mark⟩ ↔
        (strip text.toList).head? = some mark) := by
  refine ⟨fun r h => ⟨(evaluate_result_eq_error_iff.mp h).1, exists_raises_of_error hvalid hresolved h⟩,
    fun mark hmark => ⟨fun h => ?_, fun h => ?_⟩⟩
  · obtain ⟨p, q, htext, -, hhead, -, hbetween, -⟩ := exists_raises_of_error hvalid hresolved h
    rw [htext, hbetween hmark, List.nil_append]
    exact hhead
  · exact evaluate_result_eq_error_iff.mpr
      ⟨rfl, Or.inr ⟨hvalid, Or.inr ⟨hresolved, valueOf_of_head_infixOnly hmark h⟩⟩⟩

theorem remaining_failures_leading_star :
    validate "* 2" = .ok () ∧
    ((ofSource NameMap.empty : Calculator Table).resolved "* 2").outcome = .ok () ∧
    ((ofSource NameMap.empty : Calculator Table).evaluate "* 2").result =
      .error ⟨"* 2", .unexpectedCharacter '*'⟩ ∧
    ∃ p q, strip "* 2".toList = p ++ q ∧ Explained p q (.unexpectedCharacter '*') := by
  have hvalid : validate "* 2" = .ok () := by decide +kernel
  have hresolved : ((ofSource NameMap.empty : Calculator Table).resolved "* 2").outcome = .ok () := rfl
  have hall := remaining_failures (ofSource NameMap.empty : Calculator Table) "* 2" hvalid hresolved
  have hstar := (hall.2 '*' (by decide)).mpr (by decide)
  obtain ⟨-, p, q, htext, -, hexplained⟩ := hall.1 _ hstar
  exact ⟨hvalid, hresolved, hstar, p, q, htext, hexplained⟩

end Calculator

end Reckoner
