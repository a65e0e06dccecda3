import Reckoner.Proofs.Formula.Machine
import Reckoner.Proofs.ParsedTexts

/-!
# The limit of the nesting

* `Parsed.exists_evaluate_result` — a formula whose literals are numerals and whose names can all be had
  is refused for its nesting exactly if its tree is deeper than the limit. The depth of a tree is the greatest
  on any of its branches, so what stands side by side never adds up.
* `nesting_limit_exact` — this, and for any text at all what the counter of the nesting shows while the text is
  read: at each moment the number of nested calls under way, never more than the limit, and when a call
  returns, with a value or with a failure, what it showed at the call.
-/

set_option autoImplicit false

namespace Reckoner

open Evaluation (Machine read wholeValue)
open Evaluation.Machine (Runs)

section Formulas

variable {σ : Type} [ValueSource σ] {c : Calculator σ} {text : String} {t : Tree}

/-- A formula that lacks nothing has a value, or is refused for its nesting alone. -/
theorem Parsed.exists_evaluate_result (h : Parsed text t) (hliterals : ∀ l ∈ t.literals, isNumeral l = true)
    (hnames : ∀ x ∈ t.names, c.table.contains x = true ∨
      ∃ v, (⟨x, .ok v⟩ : Exchange) ∈ askInTurn c.source (missing c.table (NameSet.ofNames t.names))) :
    ∃ v, (c.evaluate text).result =
      if t.depth ≤ maxDepth then .ok v else .error ⟨text, .tooDeep maxDepth⟩ := by
  have hresolved := h.resolved_outcome_eq_ok_iff.mpr hnames
  obtain ⟨v, hv⟩ := h.exists_resolved_value? hliterals hresolved
  exact ⟨v, h.evaluate_result hresolved hv⟩

end Formulas

/-- **The limit of the nesting is exact.** A formula whose literals are numerals and whose names can all be had
    is refused for its nesting if its tree is deeper than 256, and otherwise has a value. And while any text
    is read, formula or not, the counter shows the number of nested calls under way and never more than 256.
    Each call returns, with what the function of its rule says when it is told this depth; and whenever one
    returns, with a value or with a failure, the counter shows what it showed at the call. -/
theorem nesting_limit_exact :
    (∀ (σ : Type) [ValueSource σ] (c : Calculator σ) (text : String) (t : Tree), Parsed text t →
      (∀ l ∈ t.literals, isNumeral l = true) →
      (∀ x ∈ t.names, c.table.contains x = true ∨
        ∃ v, (⟨x, .ok v⟩ : Exchange) ∈ askInTurn c.source (missing c.table (NameSet.ofNames t.names))) →
      ((c.evaluate text).result = .error ⟨text, .tooDeep 256⟩ ↔ 256 < t.depth) ∧
      (t.depth ≤ 256 → ∃ v, (c.evaluate text).result = .ok v)) ∧
    ∀ (look : String → Option Float) (text : String),
      (∃ outcome rest, Runs look [] (Machine.start text) ⟨.returned outcome, 0, rest, []⟩ ∧
        wholeValue outcome rest = valueOf look text) ∧
      ∀ m, Runs look [] (Machine.start text) m →
        m.depth = m.nestings ∧ m.depth ≤ 256 ∧
        ∀ rule, m.control = .call rule →
          (∃ rest, Runs look m.frames m
            ⟨.returned ((read look rule m.depth m.ahead).map Prod.fst), m.depth, rest, m.frames⟩) ∧
          ∀ outcome depth rest, Runs look m.frames m ⟨.returned outcome, depth, rest, m.frames⟩ →
            depth = m.depth := by
  refine ⟨fun σ _ c text t h hliterals hnames => ?_, fun look text => ⟨Machine.runs_start look text, ?_⟩⟩
  · obtain ⟨v, hv⟩ := h.exists_evaluate_result hliterals hnames
    rw [maxDepth] at hv
    rw [hv]
    by_cases hle : t.depth ≤ 256
    · rw [if_pos hle]
      refine ⟨⟨fun hdeep => ?_, fun hlt => absurd hle (by omega)⟩, fun _ => ⟨v, rfl⟩⟩
      cases hdeep
    · rw [if_neg hle]
      exact ⟨⟨fun _ => by omega, fun _ => rfl⟩, fun hshallow => absurd hshallow hle⟩
  · intro m hm
    have hcounts := (Machine.counts_start text).runs hm
    refine ⟨hcounts.depth_eq, hcounts.depth_le, fun rule hcall => ⟨?_, fun outcome depth rest hruns => ?_⟩⟩
    · obtain ⟨control, depth, ahead, frames⟩ := m
      cases hcall
      obtain ⟨rest, hruns, -⟩ := (@Evaluation.returns_read look rule depth ahead).comesBack frames
      exact ⟨rest, hruns⟩
    · have hdepth : depth = m.nestings := (hcounts.runs hruns).depth_eq
      rw [hdepth, hcounts.depth_eq]

/-! ## Minus signs in parentheses -/

/-- The literal behind a minus sign in parentheses, `n` times one in the other. -/
def alternating : Nat → Tree
  | 0 => .literal ['1']
  | n + 1 => .group (.negation (alternating n))

theorem depth_alternating (n : Nat) : (alternating n).depth = 2 * n := by
  induction n with
  | zero => rfl
  | succ n ih =>
    rw [alternating, Tree.depth, Tree.depth, ih]
    omega

theorem literals_names_alternating (n : Nat) :
    (alternating n).literals = [['1']] ∧ (alternating n).names = [] := by
  induction n with
  | zero => exact ⟨rfl, rfl⟩
  | succ n ih => exact ih

theorem derives_alternating (n : Nat) : Derives .factor (alternating n).tokens (alternating n) := by
  induction n with
  | zero => exact .literal ['1']
  | succ n ih => exact .group (Derives.negation ih).toExpression

theorem wellFormed_alternating (n : Nat) : WellFormed (alternating n).tokens := by
  induction n with
  | zero => exact wellFormed_cons.mpr ⟨⟨by simp, by simp; decide⟩, by simp [WellFormed]⟩
  | succ n ih => exact wellFormed_group.mpr (wellFormed_negation.mpr ih)

/-- 128 minus signs and as many parentheses reach the limit; one minus sign more is beyond it. -/
theorem nesting_limit_exact_alternating :
    let c : Calculator Table := .ofSource NameMap.empty
    (alternating 128).depth = 256 ∧ (∃ v, (c.evaluate (alternating 128).written).result = .ok v) ∧
      (c.evaluate (Tree.negation (alternating 128)).written).result =
        .error ⟨(Tree.negation (alternating 128)).written, .tooDeep 256⟩ := by
  intro c
  obtain ⟨hliterals, hnames⟩ := literals_names_alternating 128
  have hdepth : (alternating 128).depth = 256 := depth_alternating 128
  have hparsed := parsed_written (wellFormed_alternating 128) (derives_alternating 128).toExpression
  have hparsed' : Parsed (Tree.negation (alternating 128)).written (.negation (alternating 128)) :=
    parsed_written (wellFormed_negation.mpr (wellFormed_alternating 128))
      (Derives.negation (derives_alternating 128)).toExpression
  have hnumerals : ∀ l ∈ (alternating 128).literals, isNumeral l = true := by
    rw [hliterals]
    decide
  have hknown : ∀ x ∈ (alternating 128).names, c.table.contains x = true ∨ ∃ v,
      (⟨x, .ok v⟩ : Exchange) ∈
        askInTurn c.source (missing c.table (NameSet.ofNames (alternating 128).names)) := by
    rw [hnames]
    exact fun x hx => nomatch hx
  refine ⟨hdepth, ?_, ?_⟩
  · exact (nesting_limit_exact.1 Table c _ _ hparsed hnumerals hknown).2 hdepth.le
  · refine (nesting_limit_exact.1 Table c _ _ hparsed' hnumerals hknown).1.mpr ?_
    rw [Tree.depth, hdepth]
    omega

end Reckoner
