import Reckoner.Proofs.Formula.Substitution
import Reckoner.Proofs.FixedValues

/-!
# Writing a formula in parentheses for a name

* `Parsed.substitute` — a formula in which `(r)` stands for a name is a formula.
* `evaluateWith_substituteText` — it has the value that the formula has where the name has the value of `r`,
  or it is nested too deep, and this is told from the depths at which the name occurs.
* `evaluate_parenthesised` — a formula in parentheses has the outcome of the formula.
* `textual_substitution` — all of it, for any values and any texts.
-/

set_option autoImplicit false

namespace Reckoner

/-- The text in parentheses. -/
def parenthesised (text : String) : String := String.ofList ('(' :: text.toList ++ [')'])

/-- The text with `(r)` in place of each maximal run of letters that is the name. -/
def substituteText (x r text : String) : String :=
  String.ofList (substituteName x r.toList text.toList)

variable {m : Table} {text : String} {t : Tree}

namespace Parsed

theorem parenthesised (h : Parsed text t) : Parsed (parenthesised text) (.group t) :=
  parsed_of_derives (by simpa [Reckoner.parenthesised] using h.spelled.group) (.toExpression (.group h.derives))

theorem substitute {r : String} {u : Tree} (h : Parsed text t) (hr : Parsed r u) (x : String) :
    Parsed (substituteText x r text) (t.substitute x u) :=
  parsed_of_derives
    (by simpa [substituteText] using h.spelled.substitute h.derives.tokens_separate hr.spelled)
    (h.derives.substitute hr.derives)

end Parsed

/-- A text that is the name alone becomes the group. -/
theorem substituteText_self {x : String} (hne : x.toList ≠ []) (hx : ∀ c ∈ x.toList, c.isAlpha = true)
    (r : String) : substituteText x r x = parenthesised r := by
  rw [substituteText, substituteName, replaceRuns_eq_apply hne hx, if_pos String.ofList_toList, parenthesised]

/-- The substituted text, where the name has the value of what is put for it. -/
theorem evaluateWith_substituteText {x e r : String} {t u : Tree} {w v : Float} (he : Parsed e t)
    (hr : Parsed r u) (hw : evaluateWith m r = .ok w) (hv : evaluateWith (m.insert x w) e = .ok v) :
    evaluateWith m (substituteText x r e) =
      if ∀ d ∈ t.depthsOf x, d + 1 + u.depth ≤ 256 then .ok v
      else .error ⟨substituteText x r e, .tooDeep 256⟩ := by
  obtain ⟨hu, -⟩ := value?_of_evaluateWith hr hw
  obtain ⟨ht, hdepth⟩ := value?_of_evaluateWith he hv
  have hvalue : (t.substitute x u).value? m.get? = some v := by
    rw [Tree.value?_substitute hu, ← ht]
    congr 1
    funext y
    rw [NameMap.get?_insert]
  have hle : (t.substitute x u).depth ≤ maxDepth ↔ ∀ d ∈ t.depthsOf x, d + 1 + u.depth ≤ 256 := by
    rw [Tree.depth_substitute_le_iff]
    exact and_iff_right hdepth
  rw [evaluateWith_of_parsed (he.substitute hr x) hvalue]
  exact if_congr hle rfl rfl

/-! ## The round trip -/

/-- **A text in parentheses has the outcome of the text**, short of the limit, for every source: the result
    up to the text that a rejection quotes, the calculator afterwards and the requests. -/
theorem evaluate_parenthesised (h : Parsed text t) (hdepth : t.depth < 256) {σ : Type}
    [ValueSource σ] (c : Calculator σ) :
    (c.evaluate (parenthesised text)).result.mapError (·.cause) =
        (c.evaluate text).result.mapError (·.cause) ∧
      (c.evaluate (parenthesised text)).calculator = (c.evaluate text).calculator ∧
      (c.evaluate (parenthesised text)).exchanges = (c.evaluate text).exchanges := by
  have hresolved : c.resolved (parenthesised text) = c.resolved text := by
    unfold Calculator.resolved
    rw [h.parenthesised.namesIn_eq, h.namesIn_eq, Tree.names]
  have hvalue : ∀ look, valueOf look (parenthesised text) = valueOf look text := by
    intro look
    have hplace : t.compute look (0 + 1) = t.compute look 0 :=
      Tree.compute_depth_congr (by rw [maxDepth]; omega) (by rw [maxDepth]; omega)
    rw [h.parenthesised.valueOf_eq, h.valueOf_eq, Tree.compute, if_neg (by decide), hplace]
  obtain ⟨hcalculator, hexchanges⟩ := Calculator.evaluate_of_valid (c := c) h.valid
  obtain ⟨hcalculator', hexchanges'⟩ := Calculator.evaluate_of_valid (c := c) h.parenthesised.valid
  refine ⟨?_, by rw [hcalculator', hcalculator, hresolved], by rw [hexchanges', hexchanges, hresolved]⟩
  rw [Calculator.evaluate_result_of_valid h.valid, Calculator.evaluate_result_of_valid h.parenthesised.valid,
    hresolved, hvalue]
  cases (c.resolved text).outcome with
  | error e => rfl
  | ok _ => cases valueOf (c.resolved text).table.get? text <;> rfl

/-! ## The theorem -/

/-- **A formula in parentheses may be written for a name.** If `r` has the value `w`, and `e` the value `v`
    where the name has the value `w`, then both are formulas, and `e` with `(r)` for each run of letters that
    is the name has the value `v`; unless the name occurs at a depth `d` of `e` with `d + 1 + depth r` beyond
    the limit, and then this is the failure. A text that is the name alone becomes `(r)`, and for every
    formula short of the limit, whether it has a value or not, and every source `(r)` has the outcome of
    `r`. -/
theorem textual_substitution (m : Table) (x e r : String) :
    (∀ w v, evaluateWith m r = .ok w → evaluateWith (m.insert x w) e = .ok v →
      (∃ t, Parsed e t) ∧ (∃ u, Parsed r u) ∧ ∀ t u, Parsed e t → Parsed r u →
        evaluateWith m (substituteText x r e) =
          if ∀ d ∈ t.depthsOf x, d + 1 + u.depth ≤ 256 then .ok v
          else .error ⟨substituteText x r e, .tooDeep 256⟩) ∧
    (x.toList ≠ [] → (∀ c ∈ x.toList, c.isAlpha = true) → substituteText x r x = parenthesised r) ∧
    ∀ u, Parsed r u → u.depth < 256 → ∀ (σ : Type) [ValueSource σ] (c : Calculator σ),
      (c.evaluate (parenthesised r)).result.mapError (·.cause) = (c.evaluate r).result.mapError (·.cause) ∧
      (c.evaluate (parenthesised r)).calculator = (c.evaluate r).calculator ∧
      (c.evaluate (parenthesised r)).exchanges = (c.evaluate r).exchanges := by
  refine ⟨fun w v hw hv => ?_, fun hne hx => substituteText_self hne hx r,
    fun u hu hdepth σ _ c => evaluate_parenthesised hu hdepth c⟩
  exact ⟨exists_parsed_of_evaluateWith hv, exists_parsed_of_evaluateWith hw,
    fun t u ht hu => evaluateWith_substituteText ht hu hw hv⟩

theorem parsed_successor : Parsed "x + 1" (.operation .add (.name ['x']) (.literal ['1'])) where
  spelled := spelled_of_strip_eq_join (by simp [Tree.tokens, WellFormed, Token.wellFormed]; decide)
    (by decide) (by decide)
  derives := @Derives.chain .add _ _ _ _ (.expression (.term (.name _))) (.term (.literal _))

theorem parsed_difference : Parsed "x * y - x"
    (.operation .sub (.operation .mul (.name ['x']) (.name ['y'])) (.name ['x'])) where
  spelled := spelled_of_strip_eq_join (by simp [Tree.tokens, WellFormed, Token.wellFormed])
    (by decide) (by decide)
  derives := @Derives.chain .sub _ _ _ _
    (.expression (@Derives.chain .mul _ _ _ _ (.term (.name _)) (.name _))) (.term (.name _))

/-- What is put for `x` may mention `x` itself. -/
theorem textual_substitution_own_name : ∃ w v : Float,
    let m : Table := (NameMap.empty.insert "x" 3).insert "y" 2
    evaluateWith m "x + 1" = .ok w ∧ evaluateWith (m.insert "x" w) "x * y - x" = .ok v ∧
      evaluateWith m "(x + 1) * y - (x + 1)" = .ok v ∧
      (evaluateWith m "(x + 1)").mapError (·.cause) = (evaluateWith m "x + 1").mapError (·.cause) := by
  have hknown : ∀ t : Table, ∀ x ∈ ["x", "y"],
      ((t.insert "x" 3).insert "y" (2 : Float)).contains x = true := by
    intro t x hx
    rw [NameMap.contains_insert, NameMap.contains_insert]
    rcases List.mem_pair.mp hx with rfl | rfl <;> simp
  obtain ⟨w, hw⟩ : ∃ w, evaluateWith ((NameMap.empty.insert "x" 3).insert "y" 2) "x + 1" = .ok w :=
    exists_evaluateWith parsed_successor (by decide)
      (fun x hx => hknown _ x ((by decide : _ ⊆ ["x", "y"]) hx)) (by decide)
  obtain ⟨v, hv⟩ : ∃ v, evaluateWith (((NameMap.empty.insert "x" 3).insert "y" 2).insert "x" w)
      "x * y - x" = .ok v := by
    refine exists_evaluateWith parsed_difference (by decide) (fun x hx => ?_) (by decide)
    rw [NameMap.contains_insert]
    exact Or.inr (hknown _ x ((by decide : _ ⊆ ["x", "y"]) hx))
  obtain ⟨hsubstituted, hself, hround⟩ :=
    textual_substitution ((NameMap.empty.insert "x" 3).insert "y" 2) "x" "x * y - x" "x + 1"
  obtain ⟨-, -, hall⟩ := hsubstituted w v hw hv
  have hresult := hall _ _ parsed_difference parsed_successor
  rw [if_pos (by decide)] at hresult
  exact ⟨w, v, hw, hv, hresult, (hround _ parsed_successor (by decide) Table (Calculator.ofSource _)).1⟩

end Reckoner
