import Reckoner.Proofs.Formula.Language
import Reckoner.Proofs.Formula.Spelling
import Reckoner.Proofs.Supply.Resolution

/-!
# Texts that are formulas

`Parsed text t` says that the text is a formula and that `t` is its tree. No check finds a defect in such a
text, its names are those of the tree, and what an evaluation gives is read off the tree.

* `parsed_written` — the tokens of a tree, written one after the other, are such a text.
* `Parsed.resolved_outcome_eq_ok_iff` — when all values that the formula needs can be had.
* `Parsed.evaluate_result` — the value is then that of the tree, unless it is nested too deep.
-/

set_option autoImplicit false

namespace Reckoner

/-- The text is a formula, and this is its tree. -/
structure Parsed (text : String) (t : Tree) : Prop where
  spelled : Spelled t.tokens text.toList
  derives : Derives .expression t.tokens t

variable {text : String} {t : Tree}

theorem parsed_of_derives {ts : List Token} (hs : Spelled ts text.toList) (h : Derives .expression ts t) :
    Parsed text t := by
  rw [← h.tokens_eq] at hs h
  exact ⟨hs, h⟩

/-- The tokens of the tree, one after the other and without blanks. -/
def Tree.written (t : Tree) : String := String.ofList (Token.join t.tokens)

theorem parsed_written (hw : WellFormed t.tokens) (h : Derives .expression t.tokens t) :
    Parsed t.written t := by
  refine ⟨?_, h⟩
  rw [Tree.written, String.toList_ofList]
  exact spelled_join hw

namespace Parsed

theorem valid (h : Parsed text t) : validate text = .ok () :=
  validate_eq_ok_iff.mpr (h.derives.acceptable h.spelled)

theorem namesIn_eq (h : Parsed text t) : namesIn text = NameSet.ofNames t.names :=
  h.derives.namesIn_eq h.spelled

theorem contains_namesIn_iff (h : Parsed text t) {x : String} :
    (namesIn text).contains x = true ↔ x ∈ t.names := by
  rw [h.namesIn_eq, NameSet.contains_ofNames]

theorem valueOf_eq (h : Parsed text t) (look : String → Option Float) :
    valueOf look text = t.compute look 0 :=
  Evaluation.valueOf_of_derives h.derives h.spelled.wellFormed h.spelled.strip_eq_join

/-- The tree is worth something if its literals are numerals and its names have values. -/
theorem exists_value? (h : Parsed text t) {look : String → Option Float}
    (hliterals : ∀ l ∈ t.literals, isNumeral l = true) (hnames : ∀ x ∈ t.names, ∃ v, look x = some v) :
    ∃ v, t.value? look = some v := by
  refine Tree.value?_isSome_iff.mpr ⟨fun l hl => ?_, hnames⟩
  exact (Decimal.read_isOk_iff (h.derives.mem_literals h.spelled.wellFormed l hl)).mpr (hliterals l hl)

/-- The names of a formula can be had if each is known or answered with a value. -/
theorem resolved_outcome_eq_ok_iff {σ : Type} [ValueSource σ] (h : Parsed text t) {c : Calculator σ} :
    (c.resolved text).outcome = .ok () ↔ ∀ x ∈ t.names, c.table.contains x = true ∨
      ∃ v, (⟨x, .ok v⟩ : Exchange) ∈ askInTurn c.source (missing c.table (NameSet.ofNames t.names)) := by
  unfold Calculator.resolved
  rw [h.namesIn_eq, resolve_outcome_eq_ok_iff]
  simp only [NameSet.contains_ofNames]

/-- So it has a value if its literals are numerals besides. -/
theorem exists_resolved_value? {σ : Type} [ValueSource σ] (h : Parsed text t) {c : Calculator σ}
    (hliterals : ∀ l ∈ t.literals, isNumeral l = true) (hresolved : (c.resolved text).outcome = .ok ()) :
    ∃ v, t.value? (c.resolved text).table.get? = some v :=
  h.exists_value? hliterals fun _ hx =>
    NameMap.contains_iff.mp (resolve_contains hresolved (h.contains_namesIn_iff.mpr hx))

/-- **What a formula evaluates to** once its names have values. -/
theorem evaluate_result {σ : Type} [ValueSource σ] (h : Parsed text t) {c : Calculator σ}
    (hresolved : (c.resolved text).outcome = .ok ()) {v : Float}
    (hv : t.value? (c.resolved text).table.get? = some v) :
    (c.evaluate text).result =
      if t.depth ≤ maxDepth then .ok v else .error ⟨text, .tooDeep maxDepth⟩ := by
  have hcompute := Tree.compute_of_value? (Nat.zero_le maxDepth) hv
  rw [← h.valueOf_eq, Nat.zero_add] at hcompute
  rw [Calculator.evaluate_result_of_valid h.valid, hresolved, hcompute]
  by_cases hle : t.depth ≤ maxDepth
  · rw [if_pos hle, if_pos hle]
  · rw [if_neg hle, if_neg hle]

end Parsed

end Reckoner
