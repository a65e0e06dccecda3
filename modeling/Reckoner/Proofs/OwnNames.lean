import Reckoner.Proofs.RequestDiscipline

/-!
# Only a text's own names matter

Two calculators may know quite different values and still be alike to a text: it is enough that they agree on
the names in it and that their sources are in the same state. What else they know decides nothing, not even
which requests are made and so what a source that changes with each request will say next.

* `Calculator.Alike names c d` — the two cannot be told apart by these names.
* `Alike.evaluate`, `Alike.performAll` — they stay alike through an evaluation, and through any actions that
  keep to these names.
* `only_own_names_matter` — a text has the same result in both, with the same requests, and neither table
  changes at any other name.
-/

set_option autoImplicit false

namespace Reckoner

/-! ## Tables that agree on some names -/

/-- The tables have the same of these names, with the same values. -/
def Table.AgreeOn (names : NameSet) (t u : Table) : Prop :=
  ∀ x, names.contains x = true → t.get? x = u.get? x

namespace Table.AgreeOn

variable {names : NameSet} {t u : Table}

theorem insert (h : t.AgreeOn names u) (name : String) (value : Float) :
    Table.AgreeOn names (t.insert name value) (u.insert name value) := by
  intro x hx
  rw [NameMap.get?_insert, NameMap.get?_insert, h x hx]

theorem storeAnswer (h : t.AgreeOn names u) (e : Exchange) :
    (t.storeAnswer e).AgreeOn names (u.storeAnswer e) := by
  unfold Table.storeAnswer
  split
  · exact h
  · exact h.insert _ _

/-- The same answers are put into both. -/
theorem store (h : t.AgreeOn names u) (es : List Exchange) :
    (t.store es).AgreeOn names (u.store es) := by
  induction es generalizing t u with
  | nil => exact h
  | cons e es ih => exact ih (h.storeAnswer e)

/-- They lack the same of these names. -/
theorem missing_eq (h : t.AgreeOn names u) : missing t names = missing u names := by
  unfold missing
  refine List.filter_congr fun x hx => ?_
  rw [NameMap.contains, NameMap.contains, h x (NameMap.mem_names_iff.mp hx)]

end Table.AgreeOn

/-- What the action evaluates has no other names than these; anything may be defined. -/
def Action.KeepsTo (names : NameSet) : Action → Prop
  | .define _ _ => True
  | .evaluate text => ∀ x, (namesIn text).contains x = true → names.contains x = true

namespace Calculator

variable {σ : Type} {c d : Calculator σ} {names : NameSet} {text : String}

/-! ## Calculators that are alike -/

/-- The sources are in the same state, and the tables agree on these names. -/
structure Alike (names : NameSet) (c d : Calculator σ) : Prop where
  source_eq : c.source = d.source
  agree : c.table.AgreeOn names d.table

/-- Calculators that are alike to more names are alike to fewer. -/
theorem Alike.mono {fewer : NameSet} (h : Alike names c d)
    (hsub : ∀ x, fewer.contains x = true → names.contains x = true) : Alike fewer c d :=
  ⟨h.source_eq, fun x hx => h.agree x (hsub x hx)⟩

theorem Alike.define (h : Alike names c d) (name : String) (value : Float) :
    Alike names (c.define name value) (d.define name value) :=
  ⟨h.source_eq, h.agree.insert name value⟩

variable [ValueSource σ]

theorem Alike.requests_eq (h : Alike (namesIn text) c d) : c.requests text = d.requests text := by
  unfold requests
  rw [h.source_eq, h.agree.missing_eq]

theorem Alike.exchanges_eq (h : Alike (namesIn text) c d) :
    (c.evaluate text).exchanges = (d.evaluate text).exchanges := by
  cases hvalid : validate text with
  | error e => rw [evaluate_of_invalid hvalid, evaluate_of_invalid hvalid]
  | ok u => rw [exchanges_of_valid hvalid, exchanges_of_valid hvalid, h.requests_eq]

/-- The result is that of the requests and of the values that the text's own names have behind them. -/
theorem Alike.result_eq (h : Alike (namesIn text) c d) :
    (c.evaluate text).result = (d.evaluate text).result := by
  cases hvalid : validate text with
  | error e => rw [evaluate_of_invalid hvalid, evaluate_of_invalid hvalid]
  | ok u =>
    have hvalue : valueOf (c.resolved text).table.get? text = valueOf (d.resolved text).table.get? text := by
      rw [table_resolved, table_resolved, h.requests_eq]
      exact valueOf_congr hvalid (h.agree.store _)
    rw [evaluate_result_of_valid hvalid, evaluate_result_of_valid hvalid, hvalue, outcome_resolved,
      outcome_resolved, h.requests_eq]

/-- An evaluation leaves calculators alike to all names to which they were alike before. -/
theorem Alike.evaluate (h : Alike names c d)
    (hown : ∀ x, (namesIn text).contains x = true → names.contains x = true) :
    Alike names (c.evaluate text).calculator (d.evaluate text).calculator := by
  cases hvalid : validate text with
  | error e =>
    rw [evaluate_of_invalid hvalid, evaluate_of_invalid hvalid]
    exact h
  | ok u =>
    have hrequests := (h.mono hown).requests_eq
    refine ⟨?_, ?_⟩
    · rw [source_of_valid hvalid, source_of_valid hvalid, hrequests, h.source_eq]
    · rw [table_of_valid hvalid, table_of_valid hvalid, hrequests]
      exact h.agree.store _

/-- An evaluation changes nothing at names that are not in the text. -/
theorem get?_evaluate_of_not_contains (c : Calculator σ) {x : String}
    (hx : (namesIn text).contains x = false) :
    (c.evaluate text).calculator.table.get? x = c.table.get? x := by
  apply Option.ext
  intro v
  rw [(c.disciplined text).get?_iff, or_iff_left]
  intro he
  have hfound := (c.disciplined text).found _ he
  rw [hx] at hfound
  cases hfound

/-! ## Runs -/

theorem Alike.perform (h : Alike names c d) {action : Action} (haction : action.KeepsTo names) :
    Alike names (c.perform action) (d.perform action) ∧ c.exchangesOf action = d.exchangesOf action := by
  cases action with
  | define name value => exact ⟨h.define name value, rfl⟩
  | evaluate text => exact ⟨h.evaluate haction, (h.mono haction).exchanges_eq⟩

/-- **Calculators that are alike stay alike**, and ask the same, through all actions that keep to the names. -/
theorem Alike.performAll (h : Alike names c d) {actions : List Action}
    (hactions : ∀ a ∈ actions, a.KeepsTo names) :
    Alike names (c.performAll actions) (d.performAll actions) ∧
      c.exchangesOfAll actions = d.exchangesOfAll actions := by
  induction actions generalizing c d with
  | nil => exact ⟨h, rfl⟩
  | cons action actions ih =>
    obtain ⟨hfirst, hlater⟩ := List.forall_mem_cons.mp hactions
    obtain ⟨hnext, hasked⟩ := h.perform hfirst
    obtain ⟨hend, hrest⟩ := ih hnext hlater
    refine ⟨hend, ?_⟩
    rw [exchangesOfAll, exchangesOfAll, hasked, hrest]

/-- **Only a text's own names matter**, for every source and every text: two calculators that are alike to its
    names give it the same result and make the same requests, are alike to these names afterwards, and keep
    what they know of all others; and so through any actions that evaluate texts with no other names. -/
theorem only_own_names_matter (h : Alike (namesIn text) c d) :
    (c.evaluate text).result = (d.evaluate text).result ∧
    (c.evaluate text).exchanges = (d.evaluate text).exchanges ∧
    Alike (namesIn text) (c.evaluate text).calculator (d.evaluate text).calculator ∧
    (∀ x, (namesIn text).contains x = false →
      (c.evaluate text).calculator.table.get? x = c.table.get? x ∧
      (d.evaluate text).calculator.table.get? x = d.table.get? x) ∧
    ∀ actions : List Action, (∀ a ∈ actions, a.KeepsTo (namesIn text)) →
      c.exchangesOfAll actions = d.exchangesOfAll actions ∧
      Alike (namesIn text) (c.performAll actions) (d.performAll actions) := by
  refine ⟨h.result_eq, h.exchanges_eq, h.evaluate fun _ hx => hx, fun x hx => ?_, fun actions hactions => ?_⟩
  · exact ⟨c.get?_evaluate_of_not_contains hx, d.get?_evaluate_of_not_contains hx⟩
  · obtain ⟨hend, hasked⟩ := h.performAll hactions
    exact ⟨hasked, hend⟩

/-- One of the two knows a name that the text does not have; the answer that comes first goes to `y` in both. -/
theorem only_own_names_matter_script :
    let source : Script := ⟨[.ok 2, .error .exhausted]⟩
    let c : Calculator Script := (ofSource source).define "x" 1
    let d : Calculator Script := ((ofSource source).define "z" 7).define "x" 1
    Alike (namesIn "x * (y - w)") c d ∧
    (c.evaluate "x * (y - w)").result = (d.evaluate "x * (y - w)").result ∧
    (d.evaluate "x * (y - w)").calculator.table.get? "z" = some 7 ∧
    Action.KeepsTo (namesIn "x * (y - w)") (.evaluate "w / x") ∧
    c.exchangesOfAll [.evaluate "w / x", .evaluate "x * (y - w)"] =
      d.exchangesOfAll [.evaluate "w / x", .evaluate "x * (y - w)"] := by
  intro source c d
  have hnames : (namesIn "x * (y - w)").names = ["w", "x", "y"] := by decide +kernel
  have halike : Alike (namesIn "x * (y - w)") c d := by
    refine ⟨rfl, fun x hx => ?_⟩
    rw [← NameMap.mem_names_iff, hnames] at hx
    simp only [List.mem_cons, List.not_mem_nil, or_false] at hx
    rcases hx with rfl | rfl | rfl <;> rfl
  have hkeeps : Action.KeepsTo (namesIn "x * (y - w)") (.evaluate "w / x") := by
    intro x hx
    have hfewer : (namesIn "w / x").names = ["w", "x"] := by decide +kernel
    rw [← NameMap.mem_names_iff, hfewer] at hx
    rw [← NameMap.mem_names_iff, hnames]
    simp only [List.mem_cons, List.not_mem_nil, or_false] at hx ⊢
    rcases hx with rfl | rfl <;> simp
  obtain ⟨hresult, -, -, hothers, hruns⟩ := only_own_names_matter halike
  refine ⟨halike, hresult, (hothers "z" (by decide +kernel)).2, hkeeps, (hruns _ ?_).1⟩
  rintro a ha
  rcases List.mem_pair.mp ha with rfl | rfl
  · exact hkeeps
  · exact fun _ hx => hx

end Calculator

end Reckoner
