import Reckoner.Proofs.CacheTransparency

/-!
# Evaluating with fixed values

* `evaluateWith_eq_ok_iff` — a text has a value if it passes the checks, lacks no value of a name and can be read.
* `evaluateWith_of_parsed`, `value?_of_evaluateWith` — the value of a formula is that of its tree, unless it is
  nested too deep.
* `exists_parsed_of_evaluateWith` — only formulas have a value.
-/

set_option autoImplicit false

namespace Reckoner

open Calculator

variable {m : Table} {text : String} {t : Tree}

/-- Behind a successful resolution the values are the given ones. -/
theorem valueOf_resolved_ofSource (hvalid : validate text = .ok ())
    (h : ((ofSource m).resolved text).outcome = .ok ()) :
    valueOf ((ofSource m).resolved text).table.get? text = valueOf m.get? text :=
  valueOf_congr hvalid fun _ hx => by rw [resolved_get? h hx, known_ofSource]

theorem resolved_ofSource_outcome (h : ∀ x, (namesIn text).contains x = true → ∃ v, m.get? x = some v) :
    ((ofSource m).resolved text).outcome = .ok () := by
  unfold resolved resolve
  have hnone : (namesIn text).names.find? (fun x => (m.get? x).isNone) = none := by
    refine List.find?_eq_none.mpr fun x hx => ?_
    obtain ⟨v, hv⟩ := h x (NameMap.mem_names_iff.mp hx)
    simp [hv]
  have hknown : ∀ x, ((ofSource m).table.get? x).or ((ofSource m).source.get? x) = m.get? x :=
    fun x => congrFun known_ofSource x
  rw [resolveEach_outcome hknown, hnone]

/-- What has a value passes the checks and lacks the value of none of its names. -/
theorem evaluateWith_eq_ok_iff {v : Float} :
    evaluateWith m text = .ok v ↔ validate text = .ok () ∧
      (∀ x, (namesIn text).contains x = true → ∃ w, m.get? x = some w) ∧ valueOf m.get? text = .ok v := by
  constructor
  · intro h
    obtain ⟨hvalid, hresolved, hvalue⟩ := evaluate_result_eq_ok_iff.mp h
    rw [valueOf_resolved_ofSource hvalid hresolved] at hvalue
    refine ⟨hvalid, fun x hx => ?_, hvalue⟩
    obtain ⟨w, hw⟩ := NameMap.contains_iff.mp (resolve_contains hresolved hx)
    exact ⟨w, by rw [← hw, ← congrFun known_ofSource x, ← resolved_get? hresolved hx]; rfl⟩
  · rintro ⟨hvalid, hnames, hvalue⟩
    have hresolved := resolved_ofSource_outcome hnames
    exact evaluate_result_eq_ok_iff.mpr
      ⟨hvalid, hresolved, by rw [valueOf_resolved_ofSource hvalid hresolved, hvalue]⟩

/-- **What a formula evaluates to** where its tree is worth something. -/
theorem evaluateWith_of_parsed (h : Parsed text t) {v : Float} (hv : t.value? m.get? = some v) :
    evaluateWith m text =
      if t.depth ≤ maxDepth then .ok v else .error ⟨text, .tooDeep maxDepth⟩ := by
  have hresolved : ((ofSource m).resolved text).outcome = .ok () := by
    refine resolved_ofSource_outcome fun x hx => ?_
    exact (Tree.value?_isSome_iff.mp ⟨v, hv⟩).2 x (h.contains_namesIn_iff.mp hx)
  refine h.evaluate_result hresolved (v := v) ?_
  rw [← hv]
  refine Tree.value?_congr fun x hx => ?_
  rw [resolved_get? hresolved (h.contains_namesIn_iff.mpr hx), known_ofSource]

theorem exists_evaluateWith (h : Parsed text t) (hliterals : ∀ l ∈ t.literals, isNumeral l = true)
    (hnames : ∀ x ∈ t.names, m.contains x = true) (hdepth : t.depth ≤ maxDepth) :
    ∃ v, evaluateWith m text = .ok v := by
  obtain ⟨v, hv⟩ := h.exists_value? hliterals fun x hx => NameMap.contains_iff.mp (hnames x hx)
  exact ⟨v, by rw [evaluateWith_of_parsed h hv, if_pos hdepth]⟩

/-- What has a value is a formula. -/
theorem exists_parsed_of_evaluateWith {v : Float} (h : evaluateWith m text = .ok v) :
    ∃ t, Parsed text t := by
  obtain ⟨ts, t, haccepts⟩ := exists_accepts_of_ok h
  exact ⟨t, parsed_of_derives haccepts.spelled haccepts.derives⟩

theorem value?_of_evaluateWith (h : Parsed text t) {v : Float} (hv : evaluateWith m text = .ok v) :
    t.value? m.get? = some v ∧ t.depth ≤ maxDepth := by
  obtain ⟨-, -, hvalue⟩ := evaluateWith_eq_ok_iff.mp hv
  rw [h.valueOf_eq, Tree.compute_eq_ok_iff (Nat.zero_le _), Nat.zero_add] at hvalue
  exact hvalue

end Reckoner
