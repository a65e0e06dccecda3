import Reckoner.Proofs.AcceptedLanguage
import Reckoner.Proofs.Formula.Failures

/-!
# The names that are found and the names that are looked up

The names of a text are found in the text as it was given, where a blank ends a name. They are looked up
in the text without its blanks. `looked_up_names`: no evaluation fails at a name without a value, as all
names that are looked up were found and obtained before; and a successful one looks up all that were
found, so none was asked for in vain.
-/

set_option autoImplicit false

namespace Reckoner

open Evaluation (LooksUp without)

/-- A tree that has a value loses it with the value of any of its names. -/
theorem Tree.compute_without {look : String → Option Float} {t : Tree} {depth : Nat} {v : Float}
    (h : t.compute look depth = .ok v) (x : String) :
    t.compute (without look x) depth =
      if x ∈ t.names then .error (.undefinedName x) else .ok v := by
  induction t generalizing depth v with
  | literal text => simpa [compute, names] using h
  | name text =>
    unfold compute at h ⊢
    unfold without names
    by_cases hx : String.ofList text = x
    · simp [hx]
    · rw [if_neg hx, if_neg (by simpa [eq_comm] using hx), h]
  | negation operand ih =>
    unfold compute at h ⊢
    unfold names
    split at h
    · cases h
    · rename_i hd
      rw [if_neg hd]
      split at h
      · cases h
      · rename_i y hy
        cases h
        rw [ih hy]
        by_cases hx : x ∈ operand.names <;> simp [hx]
  | operation op left right ihl ihr =>
    unfold compute at h ⊢
    unfold names
    split at h
    · cases h
    · rename_i y hy
      split at h
      · cases h
      · rename_i z hz
        cases h
        rw [ihl hy]
        by_cases hl : x ∈ left.names
        · simp [hl]
        · rw [if_neg hl]
          simp only
          rw [ihr hz]
          by_cases hr : x ∈ right.names <;> simp [hl, hr]
  | group inner ih =>
    unfold compute at h ⊢
    split at h
    · cases h
    · rename_i hd
      rw [if_neg hd, ih h]
      rfl

/-- In a text that passes the checks leaving out blanks makes no new names. -/
theorem contains_namesIn_of_looksUp {look : String → Option Float} {text : String}
    (hvalid : validate text = .ok ()) {x : String} (h : LooksUp look (strip text.toList) x) :
    (namesIn text).contains x = true := by
  have hside := (validate_eq_ok_iff.mp hvalid).notSideBySide
  have hmem := h.mem_runs
  rw [runs_strip (fun _ => isOperandChar_of_isAlpha) hside] at hmem
  exact NameSet.contains_ofNames.mpr hmem

/-- The value of such a text depends on the values of its own names only. -/
theorem valueOf_congr {look look' : String → Option Float} {text : String}
    (hvalid : validate text = .ok ())
    (h : ∀ x, (namesIn text).contains x = true → look x = look' x) :
    valueOf look text = valueOf look' text := by
  rw [Evaluation.valueOf_eq, Evaluation.valueOf_eq, Evaluation.Called.read_congr
    (fun x hx => h x (contains_namesIn_of_looksUp hvalid hx)) .start]

namespace Calculator

variable {σ : Type} [ValueSource σ] {c : Calculator σ} {text : String}

/-- What the descent looks up it has. -/
theorem contains_resolved_of_looksUp {look : String → Option Float} (hvalid : validate text = .ok ())
    (hresolved : (c.resolved text).outcome = .ok ()) {x : String}
    (h : LooksUp look (strip text.toList) x) : (c.resolved text).table.contains x = true :=
  resolve_contains hresolved (contains_namesIn_of_looksUp hvalid h)

theorem valueOf_resolved_ne_undefinedName (hvalid : validate text = .ok ())
    (hresolved : (c.resolved text).outcome = .ok ()) (x : String) :
    valueOf (c.resolved text).table.get? text ≠ .error (.undefinedName x) := by
  intro h
  obtain ⟨p, s, hraises⟩ := Evaluation.exists_raises h
  obtain ⟨hlooks, hnone⟩ := hraises.undefinedName
  obtain ⟨v, hv⟩ := NameMap.contains_iff.mp (contains_resolved_of_looksUp hvalid hresolved hlooks)
  rw [hnone] at hv
  cases hv

/-- A successful evaluation looks up every name of the text. -/
theorem looksUp_of_ok {v : Float} (h : (c.evaluate text).result = .ok v) {x : String}
    (hx : (namesIn text).contains x = true) :
    LooksUp (c.resolved text).table.get? (strip text.toList) x := by
  obtain ⟨tokens, tree, haccepts⟩ := exists_accepts_of_ok h
  have hvalue : ∀ look, valueOf look text = tree.compute look 0 := fun look =>
    Evaluation.valueOf_of_derives haccepts.derives haccepts.spelled.wellFormed haccepts.spelled.strip_eq_join
  rw [Evaluation.looksUp_iff_undefined, hvalue]
  rw [evaluate_result_eq_ok_iff, hvalue] at h
  rw [haccepts.derives.namesIn_eq haccepts.spelled, NameSet.contains_ofNames] at hx
  rw [Tree.compute_without h.2.2 x, if_pos hx]

/-- **The names that are found and the names that are looked up agree**, for every calculator, every source
    and every text. -/
theorem looked_up_names (c : Calculator σ) (text : String) :
    (∀ r x, (c.evaluate text).result = .error r → r.cause ≠ .undefinedName x) ∧
    (validate text = .ok () → (c.resolved text).outcome = .ok () →
      ∀ x, LooksUp (c.resolved text).table.get? (strip text.toList) x →
        (namesIn text).contains x = true ∧ (c.resolved text).table.contains x = true) ∧
    ((∃ v, (c.evaluate text).result = .ok v) →
      (∀ x, LooksUp (c.resolved text).table.get? (strip text.toList) x ↔
        (namesIn text).contains x = true) ∧
      ∀ e ∈ (c.evaluate text).exchanges,
        LooksUp (c.resolved text).table.get? (strip text.toList) e.name) := by
  refine ⟨fun r x h hcause => ?_, fun hvalid hresolved x h => ?_, fun ⟨v, hv⟩ => ?_⟩
  · obtain ⟨-, hstage⟩ := evaluate_result_eq_error_iff.mp h
    rw [hcause] at hstage
    rcases hstage with hinvalid | ⟨hvalid, hunresolved | ⟨hresolved, hvalue⟩⟩
    · cases isDefect_of_validate_eq_error hinvalid
    · unfold resolved resolve at hunresolved
      obtain ⟨y, -, cause, he⟩ := resolveEach_outcome_eq_error hunresolved
      cases he
    · exact valueOf_resolved_ne_undefinedName hvalid hresolved x hvalue
  · exact ⟨contains_namesIn_of_looksUp hvalid h, contains_resolved_of_looksUp hvalid hresolved h⟩
  · have hvalid := (evaluate_result_eq_ok_iff.mp hv).1
    refine ⟨fun x => ⟨contains_namesIn_of_looksUp hvalid, looksUp_of_ok hv⟩, fun e he => ?_⟩
    rw [(evaluate_of_valid hvalid).2] at he
    exact looksUp_of_ok hv (NameMap.mem_names_iff.mp (name_mem_of_mem_exchanges he))

theorem looked_up_names_product :
    ((ofSource (NameMap.empty.insert "x" 3) : Calculator Table).resolved " 2 * (x - 1.5)").table.contains
      "x" = true ∧
    ∀ x, LooksUp ((ofSource (NameMap.empty.insert "x" 3) : Calculator Table).resolved
      " 2 * (x - 1.5)").table.get? (strip " 2 * (x - 1.5)".toList) x ↔ x = "x" := by
  obtain ⟨v, hv⟩ := accepts_product.value?_isSome
  have hok := accepts_product.result_eq_ok_iff.mpr hv
  have hall := ((looked_up_names _ _).2.2 ⟨v, hok⟩).1
  have hnames : namesIn " 2 * (x - 1.5)" = NameSet.ofNames ["x"] :=
    accepts_product.derives.namesIn_eq accepts_product.spelled
  simp only [hnames, NameSet.contains_ofNames, List.mem_singleton] at hall
  exact ⟨((looked_up_names _ _).2.1 accepts_product.valid accepts_product.resolved_outcome "x"
    ((hall "x").mpr rfl)).2, hall⟩

end Calculator

end Reckoner
