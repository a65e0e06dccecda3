import Reckoner.Calculator
import Reckoner.Proofs.NameMap

/-!
# What obtaining missing values does

* `missing`, `askInTurn` — the names that are asked for and the answers they get are fixed beforehand, by
  the names, the table and the source.
* `resolve_outcome_eq_ok_iff` — it succeeds exactly if each name is present or answered with a value.
* `resolveEach_get?_of_some`, `resolve_contains` — what was known stays, and after success every name has
  a value.
* `Calculator.evaluate_result_eq_ok_iff`, `Calculator.evaluate_result_eq_error_iff` — the results of an
  evaluation, stage by stage.
-/

set_option autoImplicit false

namespace Reckoner

variable {σ : Type} [ValueSource σ]

/-- The names that the table lacks, ascending. -/
def missing (table : Table) (names : NameSet) : List String :=
  names.names.filter fun x => !table.contains x

/-- What the source says if it is asked for these names one after the other. -/
def askInTurn : σ → List String → List Exchange
  | _, [] => []
  | source, name :: names =>
    let (answer, source) := ValueSource.request source name
    ⟨name, answer⟩ :: askInTurn source names

theorem name_mem_of_mem_askInTurn {source : σ} {names : List String} {e : Exchange}
    (h : e ∈ askInTurn source names) : e.name ∈ names := by
  induction names generalizing source with
  | nil => cases h
  | cons name names ih =>
    rcases List.mem_cons.mp h with rfl | h
    · exact List.mem_cons_self
    · exact List.mem_cons_of_mem _ (ih h)

/-! ## One name after the other -/

section Each

variable {names : List String} {table : Table} {source : σ}

/-- What was known stays as it was. -/
theorem resolveEach_get?_of_some {x : String} {v : Float} (h : table.get? x = some v) :
    (resolveEach names table source).table.get? x = some v := by
  fun_induction resolveEach names table source with
  | case1 => exact h
  | case2 _ _ _ _ _ ih => exact ih h
  | case3 => exact h
  | case4 name _ table _ hname w _ _ _ ih =>
    apply ih
    have hne : x ≠ name := by
      rintro rfl
      exact hname (NameMap.contains_iff.mpr ⟨v, h⟩)
    rw [NameMap.get?_insert, if_neg hne, h]

theorem resolveEach_contains {x : String} (h : table.contains x = true) :
    (resolveEach names table source).table.contains x = true := by
  obtain ⟨v, hv⟩ := NameMap.contains_iff.mp h
  exact NameMap.contains_iff.mpr ⟨v, resolveEach_get?_of_some hv⟩

/-- After success every name has a value. -/
theorem resolveEach_contains_of_ok (h : (resolveEach names table source).outcome = .ok ()) :
    ∀ x ∈ names, (resolveEach names table source).table.contains x = true := by
  fun_induction resolveEach names table source with
  | case1 => simp
  | case2 name names table source hname ih =>
    exact List.forall_mem_cons.mpr ⟨resolveEach_contains hname, ih h⟩
  | case3 => cases h
  | case4 name names table _ hname w after _ later ih =>
    have hnew : (table.insert name w).contains name = true := NameMap.contains_insert.mpr (Or.inl rfl)
    exact List.forall_mem_cons.mpr ⟨resolveEach_contains hnew, ih h⟩

/-- A failure names what could not be had. -/
theorem resolveEach_outcome_eq_error {e : FormulaError}
    (h : (resolveEach names table source).outcome = .error e) :
    ∃ x ∈ names, ∃ cause, e = .unavailable x cause := by
  fun_induction resolveEach names table source with
  | case1 => cases h
  | case2 name names _ _ _ ih =>
    obtain ⟨x, hx, hcause⟩ := ih h
    exact ⟨x, List.mem_cons_of_mem _ hx, hcause⟩
  | case3 name _ _ _ _ cause _ _ =>
    cases h
    exact ⟨name, List.mem_cons_self, cause, rfl⟩
  | case4 name names _ _ _ _ _ _ _ ih =>
    obtain ⟨x, hx, hcause⟩ := ih h
    exact ⟨x, List.mem_cons_of_mem _ hx, hcause⟩

/-- Only names of the list are asked for. -/
theorem name_mem_of_mem_exchanges {e : Exchange} (h : e ∈ (resolveEach names table source).exchanges) :
    e.name ∈ names := by
  fun_induction resolveEach names table source with
  | case1 => cases h
  | case2 _ _ _ _ _ ih => exact List.mem_cons_of_mem _ (ih h)
  | case3 =>
    rw [List.mem_singleton.mp h]
    exact List.mem_cons_self
  | case4 _ _ _ _ _ _ _ _ _ ih =>
    rcases List.mem_cons.mp h with rfl | h
    · exact List.mem_cons_self
    · exact List.mem_cons_of_mem _ (ih h)

/-- Success, said beforehand: the names occur once each, so that an answer belongs to one name. -/
theorem resolveEach_outcome_eq_ok_iff (hnames : names.Nodup) :
    (resolveEach names table source).outcome = .ok () ↔
      ∀ x ∈ names, table.contains x = true ∨
        ∃ v, (⟨x, .ok v⟩ : Exchange) ∈ askInTurn source (names.filter fun y => !table.contains y) := by
  fun_induction resolveEach names table source with
  | case1 => simp
  | case2 name names table source hname ih =>
    rw [ih (List.nodup_cons.mp hnames).2, List.forall_mem_cons, List.filter_cons_of_neg (by simp [hname])]
    simp [hname]
  | case3 name names table source hname e after hr =>
    rw [List.filter_cons_of_pos (by simp [hname]), askInTurn, hr]
    constructor
    · intro h
      cases h
    · intro h
      rcases h name List.mem_cons_self with h | ⟨v, h⟩
      · exact absurd h hname
      · rcases List.mem_cons.mp h with h | h
        · cases h
        · -- a later answer belongs to another name
          have hmem := (List.mem_filter.mp (name_mem_of_mem_askInTurn h)).1
          exact absurd hmem (List.nodup_cons.mp hnames).1
  | case4 name names table source hname w after hr later ih =>
    obtain ⟨hnew, hnames⟩ := List.nodup_cons.mp hnames
    have hsame : ∀ y ∈ names, (table.insert name w).contains y = table.contains y := by
      intro y hy
      exact NameMap.contains_insert_of_ne fun heq => hnew (heq ▸ hy)
    have hfilter : (names.filter fun y => !(table.insert name w).contains y) =
        names.filter fun y => !table.contains y :=
      List.filter_congr fun y hy => by rw [hsame y hy]
    rw [List.filter_cons_of_pos (by simp [hname]), askInTurn, hr, List.forall_mem_cons]
    refine (ih hnames).trans ?_
    rw [hfilter]
    constructor
    · intro h
      refine ⟨Or.inr ⟨w, List.mem_cons_self⟩, fun x hx => ?_⟩
      rcases h x hx with h | ⟨v, h⟩
      · exact Or.inl (by rwa [hsame x hx] at h)
      · exact Or.inr ⟨v, List.mem_cons_of_mem _ h⟩
    · rintro ⟨-, h⟩ x hx
      rcases h x hx with h | ⟨v, h⟩
      · exact Or.inl (by rwa [hsame x hx])
      · rcases List.mem_cons.mp h with h | h
        · cases h
          exact absurd hx hnew
        · exact Or.inr ⟨v, h⟩

end Each

/-! ## The names of a set -/

/-- **Success, said beforehand**: each name is present or is answered with a value. -/
theorem resolve_outcome_eq_ok_iff {names : NameSet} {table : Table} {source : σ} :
    (resolve names table source).outcome = .ok () ↔
      ∀ x, names.contains x = true → table.contains x = true ∨
        ∃ v, (⟨x, .ok v⟩ : Exchange) ∈ askInTurn source (missing table names) := by
  unfold resolve missing
  rw [resolveEach_outcome_eq_ok_iff names.names_nodup]
  simp only [NameMap.mem_names_iff]

theorem resolve_contains {names : NameSet} {table : Table} {source : σ}
    (h : (resolve names table source).outcome = .ok ()) {x : String} (hx : names.contains x = true) :
    (resolve names table source).table.contains x = true :=
  resolveEach_contains_of_ok h x (NameMap.mem_names_iff.mpr hx)

/-! ## The stages of an evaluation -/

namespace Calculator

/-- What is known when the value of the text is computed, and what the source is like then. -/
def resolved (c : Calculator σ) (text : String) : Resolution σ :=
  resolve (namesIn text) c.table c.source

variable {c : Calculator σ} {text : String}

theorem evaluate_of_invalid {e : FormulaError} (h : validate text = .error e) :
    c.evaluate text = ⟨.error ⟨text, e⟩, c, []⟩ := by
  rw [evaluate, h]

/-- Behind the checks an evaluation keeps what the resolution has obtained, however it ends. -/
theorem evaluate_of_valid (h : validate text = .ok ()) :
    (c.evaluate text).calculator = ⟨(c.resolved text).table, (c.resolved text).source⟩ ∧
      (c.evaluate text).exchanges = (c.resolved text).exchanges := by
  rw [evaluate, h]
  unfold resolved
  simp only
  cases (resolve (namesIn text) c.table c.source).outcome with
  | error e => exact ⟨rfl, rfl⟩
  | ok u =>
    simp only
    cases valueOf (resolve (namesIn text) c.table c.source).table.get? text <;> exact ⟨rfl, rfl⟩

/-- The result behind the checks. -/
theorem evaluate_result_of_valid (h : validate text = .ok ()) :
    (c.evaluate text).result =
      match (c.resolved text).outcome with
      | .error e => .error ⟨text, e⟩
      | .ok () =>
        match valueOf (c.resolved text).table.get? text with
        | .error e => .error ⟨text, e⟩
        | .ok value => .ok value := by
  rw [evaluate, h]
  unfold resolved
  simp only
  cases (resolve (namesIn text) c.table c.source).outcome with
  | error e => rfl
  | ok u =>
    simp only
    cases valueOf (resolve (namesIn text) c.table c.source).table.get? text <;> rfl

/-- **A value** comes out if all three stages succeed. -/
theorem evaluate_result_eq_ok_iff {v : Float} :
    (c.evaluate text).result = .ok v ↔ validate text = .ok () ∧ (c.resolved text).outcome = .ok () ∧
      valueOf (c.resolved text).table.get? text = .ok v := by
  unfold evaluate resolved
  cases validate text with
  | error e => simp
  | ok u =>
    simp only
    cases (resolve (namesIn text) c.table c.source).outcome with
    | error e => simp
    | ok u =>
      simp only
      cases valueOf (resolve (namesIn text) c.table c.source).table.get? text <;> simp

/-- **A failure** is that of the first stage that fails. -/
theorem evaluate_result_eq_error_iff {r : Rejection} :
    (c.evaluate text).result = .error r ↔ r.expression = text ∧
      (validate text = .error r.cause ∨ (validate text = .ok () ∧
        ((c.resolved text).outcome = .error r.cause ∨ ((c.resolved text).outcome = .ok () ∧
          valueOf (c.resolved text).table.get? text = .error r.cause)))) := by
  have hreject : ∀ e : FormulaError,
      (Except.error ⟨text, e⟩ : Except Rejection Float) = .error r ↔ r.expression = text ∧ e = r.cause := by
    intro e
    cases r
    simp [eq_comm]
  unfold evaluate resolved
  cases validate text with
  | error e => simp [hreject]
  | ok u =>
    simp only
    cases (resolve (namesIn text) c.table c.source).outcome with
    | error e => simp [hreject]
    | ok u =>
      simp only
      cases valueOf (resolve (namesIn text) c.table c.source).table.get? text <;> simp [hreject]

end Calculator

end Reckoner
