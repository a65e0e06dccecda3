import Reckoner.Proofs.ParsedTexts

/-!
# Which texts have a value, and which value

`Calculator.Accepts c text tokens tree` says, without a word about the checks or the descent, that `text`
spells `tokens`, that these derive from the grammar with `tree`, that the literals are numerals, that the
nesting is within the limit and that each name is known or answered with a value.

`evaluate_accepts_exactly`: a calculator finds a value for exactly these texts, whatever it knows already
and however its source behaves, and the value is that of the tree under the table afterwards.
-/

set_option autoImplicit false

namespace Reckoner.Calculator

variable {σ : Type} [ValueSource σ] {c : Calculator σ} {text : String} {tokens : List Token} {tree : Tree}

/-- The text is a formula of the grammar, of a depth within the limit, and all it needs is to be had. -/
structure Accepts (c : Calculator σ) (text : String) (tokens : List Token) (tree : Tree) : Prop where
  spelled : Spelled tokens text.toList
  derives : Derives .expression tokens tree
  numerals : ∀ l ∈ tree.literals, isNumeral l = true
  depth_le : tree.depth ≤ 256
  supplied : ∀ x ∈ tree.names, c.table.contains x = true ∨
    ∃ v, (⟨x, .ok v⟩ : Exchange) ∈ askInTurn c.source (missing c.table (NameSet.ofNames tree.names))

/-! ## From the grammar to the value -/

theorem Accepts.parsed (h : c.Accepts text tokens tree) : Parsed text tree :=
  parsed_of_derives h.spelled h.derives

theorem Accepts.valid (h : c.Accepts text tokens tree) : validate text = .ok () := h.parsed.valid

theorem Accepts.resolved_outcome (h : c.Accepts text tokens tree) : (c.resolved text).outcome = .ok () :=
  h.parsed.resolved_outcome_eq_ok_iff.mpr h.supplied

/-- The value of an accepted text is that of its tree. -/
theorem Accepts.result_eq_ok_iff (h : c.Accepts text tokens tree) {v : Float} :
    (c.evaluate text).result = .ok v ↔ tree.value? (c.resolved text).table.get? = some v := by
  rw [evaluate_result_eq_ok_iff, h.parsed.valueOf_eq, Tree.compute_eq_ok_iff (Nat.zero_le _), Nat.zero_add]
  constructor
  · exact fun hv => hv.2.2.1
  · exact fun hv => ⟨h.valid, h.resolved_outcome, hv, h.depth_le⟩

theorem Accepts.value?_isSome (h : c.Accepts text tokens tree) :
    ∃ v, tree.value? (c.resolved text).table.get? = some v :=
  h.parsed.exists_resolved_value? h.numerals h.resolved_outcome

/-! ## From the value to the grammar -/

theorem exists_accepts_of_ok {v : Float} (h : (c.evaluate text).result = .ok v) :
    ∃ tokens tree, c.Accepts text tokens tree := by
  obtain ⟨hvalid, hresolved, hvalue⟩ := evaluate_result_eq_ok_iff.mp h
  obtain ⟨ts, t, hd, hw, hs, hv⟩ := Evaluation.valueOf_eq_ok_iff.mp hvalue
  obtain ⟨hv, hdepth⟩ := (Tree.compute_eq_ok_iff (Nat.zero_le _)).mp hv
  rw [maxDepth] at hdepth
  have hspelled := spelled_of_strip_eq_join hw (validate_eq_ok_iff.mp hvalid).notSideBySide hs
  have hread := (Tree.value?_isSome_iff.mp ⟨v, hv⟩).1
  refine ⟨ts, t, hspelled, hd, fun l hl => ?_, by omega, fun x hx => ?_⟩
  · exact (Decimal.read_isOk_iff (hd.mem_literals hw l hl)).mp (hread l hl)
  · unfold resolved at hresolved
    rw [resolve_outcome_eq_ok_iff, hd.namesIn_eq hspelled] at hresolved
    exact hresolved x (NameSet.contains_ofNames.mpr hx)

/-- **The accepted language and the value**, for every calculator, every source and every text. -/
theorem evaluate_accepts_exactly (c : Calculator σ) (text : String) :
    ((∃ v, (c.evaluate text).result = .ok v) ↔ ∃ tokens tree, c.Accepts text tokens tree) ∧
      ∀ tokens tree, c.Accepts text tokens tree → ∀ v, (c.evaluate text).result = .ok v ↔
        tree.value? (c.evaluate text).calculator.table.get? = some v := by
  constructor
  · constructor
    · rintro ⟨v, hv⟩
      exact exists_accepts_of_ok hv
    · rintro ⟨tokens, tree, h⟩
      obtain ⟨v, hv⟩ := h.value?_isSome
      exact ⟨v, h.result_eq_ok_iff.mpr hv⟩
  · intro tokens tree h v
    rw [(evaluate_of_valid h.valid).1]
    exact h.result_eq_ok_iff

theorem accepts_product : (ofSource (NameMap.empty.insert "x" 3) : Calculator Table).Accepts
    " 2 * (x - 1.5)" [.literal ['2'], .operation .mul, .opening, .name ['x'], .operation .sub,
      .literal ['1', '.', '5'], .closing]
    (.operation .mul (.literal ['2']) (.group (.operation .sub (.name ['x'])
      (.literal ['1', '.', '5'])))) where
  spelled := spelled_of_strip_eq_join (by simp [WellFormed, Token.wellFormed]; decide)
    (by decide) (by decide)
  derives := .expression (@Derives.chain .mul _ _ _ _ (.term (.literal _))
    (.group (@Derives.chain .sub _ _ _ _ (.expression (.term (.name _))) (.term (.literal _)))))
  numerals := by decide
  depth_le := by decide
  supplied := by
    intro x hx
    rw [List.mem_singleton.mp hx]
    exact Or.inr ⟨3, List.mem_cons_self⟩

theorem evaluate_product : ∃ tokens tree,
    (ofSource (NameMap.empty.insert "x" 3) : Calculator Table).Accepts " 2 * (x - 1.5)" tokens tree ∧
      ((ofSource (NameMap.empty.insert "x" 3) : Calculator Table).evaluate " 2 * (x - 1.5)").result =
        .ok 3 ∧
      tree.value? ((ofSource (NameMap.empty.insert "x" 3) : Calculator Table).evaluate
        " 2 * (x - 1.5)").calculator.table.get? = some 3 := by
  have hvalue : (Tree.operation .mul (.literal ['2']) (.group (.operation .sub (.name ['x'])
      (.literal ['1', '.', '5'])))).value? ((ofSource (NameMap.empty.insert "x" 3) :
        Calculator Table).evaluate " 2 * (x - 1.5)").calculator.table.get? = some 3 := by
    decide +kernel
  exact ⟨_, _, accepts_product,
    ((evaluate_accepts_exactly _ _).2 _ _ accepts_product 3).mpr hvalue, hvalue⟩

end Reckoner.Calculator
