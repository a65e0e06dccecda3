import Reckoner.Proofs.Formula.Renaming
import Reckoner.Proofs.FixedValues

/-!
# No name is special

Put other names for the names of a text, the same wherever a name occurs, and give each the value of the name it
is put for. Two names may be put together, if they have the same value.

* `contains_namesIn_renameText` — the names of the new text are those that were put.
* `no_name_is_special` — the new text is judged as the old one is and has the same value, or none either.
-/

set_option autoImplicit false

namespace Reckoner

variable {r : String → String}

/-- **The names of the text** with other names are the other names. -/
theorem contains_namesIn_renameText (hr : ∀ x, IsName x → IsName (r x)) {text y : String} :
    (namesIn (renameText r text)).contains y = true ↔
      ∃ x, (namesIn text).contains x = true ∧ r x = y := by
  unfold namesIn
  rw [toList_renameText, runs_replaceRuns (keepsRuns_renameRun hr)]
  simp only [NameSet.contains_ofNames, List.mem_map, exists_exists_and_eq_and, renameRun, String.ofList_toList]

theorem validate_renameText_eq_ok_iff (hr : ∀ x, IsName x → IsName (r x)) {text : String} :
    validate (renameText r text) = .ok () ↔ validate text = .ok () := by
  rw [validate_renameText hr]
  cases validate text <;> simp [Except.mapError]

/-- **No name is special.** For every text, formula or not, and whatever names are put for its names: the checks
    give the same answer, with the other names in what it quotes, the names of the text are those that were put,
    and an evaluation ends with the same value, or fails for both texts, if each name has the value of the name
    it is put for, or lacks one as that does. -/
theorem no_name_is_special (r : String → String) (hr : ∀ x, IsName x → IsName (r x)) (text : String)
    (m m' : Table) (hm : ∀ x, (namesIn text).contains x = true → m'.get? (r x) = m.get? x) :
    validate (renameText r text) = (validate text).mapError (FormulaError.renamed r) ∧
      (∀ y, (namesIn (renameText r text)).contains y = true ↔
        ∃ x, (namesIn text).contains x = true ∧ r x = y) ∧
      ∀ v, evaluateWith m text = .ok v ↔ evaluateWith m' (renameText r text) = .ok v := by
  refine ⟨validate_renameText hr text, fun y => contains_namesIn_renameText hr, fun v => ?_⟩
  rw [evaluateWith_eq_ok_iff, evaluateWith_eq_ok_iff, validate_renameText_eq_ok_iff hr]
  refine and_congr_right fun hvalid => ?_
  have hnames : (∀ x, (namesIn text).contains x = true → ∃ w, m.get? x = some w) ↔
      ∀ y, (namesIn (renameText r text)).contains y = true → ∃ w, m'.get? y = some w := by
    simp only [contains_namesIn_renameText hr]
    constructor
    · rintro h y ⟨x, hx, rfl⟩
      rw [hm x hx]
      exact h x hx
    · intro h x hx
      rw [← hm x hx]
      exact h (r x) ⟨x, hx, rfl⟩
  have hvalue : valueOf (fun x => m'.get? (r x)) text = valueOf m.get? text := valueOf_congr hvalid hm
  rw [hnames, Evaluation.valueOf_renameText_eq_ok_iff hr (validate_eq_ok_iff.mp hvalid).notSideBySide, hvalue]

theorem parsed_doubleLessSum : Parsed "2 * b - (a + b)"
    (.operation .sub (.operation .mul (.literal ['2']) (.name ['b']))
      (.group (.operation .add (.name ['a']) (.name ['b'])))) where
  spelled := spelled_of_strip_eq_join (by simp [Tree.tokens, WellFormed, Token.wellFormed]; decide)
    (by decide) (by decide)
  derives := @Derives.chain .sub _ _ _ _
    (.expression (@Derives.chain .mul _ _ _ _ (.term (.literal _)) (.name _)))
    (.term (.group (@Derives.chain .add _ _ _ _ (.expression (.term (.name _))) (.term (.name _)))))

/-- A word that a numeral may contain is a name like any other, and two names may become one. -/
theorem no_name_is_special_nan_e :
    let m : Table := (NameMap.empty.insert "a" 5).insert "b" 3
    let m' : Table := (NameMap.empty.insert "nan" 5).insert "e" 3
    (∃ v, evaluateWith m "2 * b - (a + b)" = .ok v ∧ evaluateWith m' "2 * e - (nan + e)" = .ok v) ∧
      validate "e  e1 +" = .error (.adjacentOperands "e  e1") := by
  intro m m'
  have hnames : ∀ x, (namesIn "2 * b - (a + b)").contains x = true → x = "a" ∨ x = "b" := by
    intro x hx
    exact List.mem_pair.mp ((by decide : _ ⊆ ["a", "b"]) (parsed_doubleLessSum.contains_namesIn_iff.mp hx))
  obtain ⟨v, hv⟩ : ∃ v, evaluateWith m "2 * b - (a + b)" = .ok v := by
    refine exists_evaluateWith parsed_doubleLessSum (by decide) (fun x hx => ?_) (by decide)
    rw [NameMap.contains_insert, NameMap.contains_insert]
    rcases hnames x (parsed_doubleLessSum.contains_namesIn_iff.mpr hx) with rfl | rfl <;> simp
  refine ⟨⟨v, hv, ?_⟩, ?_⟩
  · have hr : ∀ x, IsName x → IsName (if x = "a" then "nan" else "e") := by
      intro x _
      split <;> exact ⟨by decide, List.all_eq_true.mp rfl⟩
    obtain ⟨-, -, hsame⟩ := no_name_is_special _ hr "2 * b - (a + b)" m m' fun x hx => by
      rcases hnames x hx with rfl | rfl <;> simp [m, m', NameMap.get?_insert]
    have hrenamed := (hsame v).mp hv
    have htext : renameText (fun x => if x = "a" then "nan" else "e") "2 * b - (a + b)" =
        "2 * e - (nan + e)" := by decide +kernel
    rwa [htext] at hrenamed
  · have hr : ∀ x, IsName x → IsName "e" := fun _ _ => ⟨by decide, List.all_eq_true.mp rfl⟩
    obtain ⟨hjudged, -⟩ := no_name_is_special (fun _ => "e") hr "x  y1 +" NameMap.empty NameMap.empty
      fun x _ => rfl
    have hdefect : validate "x  y1 +" = .error (.adjacentOperands "x  y1") := by decide +kernel
    have htext : renameText (fun _ => "e") "x  y1 +" = "e  e1 +" := by decide +kernel
    have hquoted : renameText (fun _ => "e") "x  y1" = "e  e1" := by decide +kernel
    rw [hdefect, htext] at hjudged
    rw [hjudged, Except.mapError, FormulaError.renamed, hquoted]

end Reckoner
