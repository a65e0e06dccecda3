import Reckoner.Proofs.CacheTransparency
import Reckoner.Proofs.Supply.Progress

/-!
# No name is asked for twice

What a calculator asks of its source and what it keeps, over any actions and against a source that may
answer as it likes.

* `Calculator.Disciplined` — what one evaluation may ask for and what it may change, whether it succeeds or
  fails and at whatever stage; `disciplined` says that every evaluation keeps to it.
* `get?_performAll` — a value that is known stays, and only a definition of its name replaces it.
* `name_ne_of_mem_exchangesOfAll` — a name that has a value is not asked for.
* `request_discipline` — all of it, for every calculator and every list of actions.
-/

set_option autoImplicit false

namespace Reckoner

/-- What the actions define: the last value that each name was given. -/
def definitions (actions : List Action) : Table :=
  Table.overrideAll NameMap.empty actions

theorem get?_overrideAll (m : Table) (actions : List Action) (x : String) :
    (m.overrideAll actions).get? x = ((definitions actions).get? x).or (m.get? x) := by
  unfold definitions
  induction actions generalizing m with
  | nil => rfl
  | cons action actions ih =>
    show ((m.override action).overrideAll actions).get? x =
      (((Table.override NameMap.empty action).overrideAll actions).get? x).or (m.get? x)
    rw [ih, ih (Table.override NameMap.empty action)]
    cases action with
    | define name value =>
      simp only [Table.override, NameMap.get?_insert, NameMap.get?_empty, Option.or_assoc]
      split <;> rfl
    | evaluate text => simp [Table.override]

namespace Calculator

variable {σ : Type} [ValueSource σ] {c : Calculator σ} {text : String}

/-! ## One evaluation -/

/-- What an evaluation of the text may ask for, and what it may change. The source is asked only if the text has
    passed the checks, for names of the text that had no value before, and for each of them once; the answers are
    those of the source to these requests. What is in the table afterwards was there before, or was answered. -/
structure Disciplined (c : Calculator σ) (text : String) : Prop where
  valid : ∀ e ∈ (c.evaluate text).exchanges, validate text = .ok ()
  found : ∀ e ∈ (c.evaluate text).exchanges, (namesIn text).contains e.name = true
  lacked : ∀ e ∈ (c.evaluate text).exchanges, c.table.contains e.name = false
  once : ((c.evaluate text).exchanges.map Exchange.name).Nodup
  answered : askInTurn c.source ((c.evaluate text).exchanges.map Exchange.name) =
    (c.evaluate text).exchanges
  source_eq : (c.evaluate text).calculator.source =
    afterAsking c.source ((c.evaluate text).exchanges.map Exchange.name)
  refused : ∀ e, validate text = .error e →
    (c.evaluate text).exchanges = [] ∧ (c.evaluate text).calculator = c
  get?_iff : ∀ x v, (c.evaluate text).calculator.table.get? x = some v ↔
    c.table.get? x = some v ∨ (⟨x, .ok v⟩ : Exchange) ∈ (c.evaluate text).exchanges

/-- **Every evaluation keeps to the discipline**, whether it succeeds or fails. -/
theorem disciplined (c : Calculator σ) (text : String) : c.Disciplined text := by
  cases hvalid : validate text with
  | error e =>
    have heval := evaluate_of_invalid (c := c) hvalid
    refine ⟨?_, ?_, ?_, ?_, ?_, ?_, ?_, ?_⟩ <;> simp [heval, askInTurn, afterAsking]
  | ok u =>
    have hexchanges := exchanges_of_valid (c := c) hvalid
    refine ⟨fun _ _ => hvalid, ?_, ?_, ?_, ?_, ?_, ?_, ?_⟩
    · intro e he
      rw [hexchanges] at he
      exact (mem_missing_iff.mp (name_mem_missing_of_asked he)).1
    · intro e he
      rw [hexchanges] at he
      exact contains_eq_false_of_mem_asked he
    · rw [hexchanges]
      exact map_name_asked_nodup c.source c.table (namesIn text)
    · rw [hexchanges]
      exact askInTurn_map_name_asked c.source c.table (namesIn text)
    · rw [hexchanges, source_of_valid hvalid]
    · intro e he
      rw [hvalid] at he
      cases he
    · intro x v
      rw [hexchanges, table_of_valid hvalid]
      exact get?_store_asked

/-- What is asked for are names that had no value, in order from the first. -/
theorem map_name_exchanges_prefix (c : Calculator σ) (text : String) :
    (c.evaluate text).exchanges.map Exchange.name <+: missing c.table (namesIn text) := by
  cases hvalid : validate text with
  | error e => simp [evaluate_of_invalid hvalid]
  | ok u =>
    rw [exchanges_of_valid hvalid]
    exact map_name_asked_prefix_missing c.source c.table (namesIn text)

/-! ## Runs -/

variable {actions : List Action} {x : String}

/-- One action keeps what is known, unless it defines the name. -/
theorem get?_perform {v : Float} (h : c.table.get? x = some v) (action : Action) :
    (c.perform action).table.get? x = ((definitions [action]).get? x).or (some v) := by
  cases action with
  | define name value =>
    show (c.table.insert name value).get? x = (((NameMap.empty : Table).insert name value).get? x).or (some v)
    rw [NameMap.get?_insert, NameMap.get?_insert, NameMap.get?_empty, h]
    split <;> rfl
  | evaluate text => exact ((c.disciplined text).get?_iff x v).mpr (Or.inl h)

/-- **What is known stays**, and only a definition of its name replaces it. -/
theorem get?_performAll {v : Float} (h : c.table.get? x = some v) (actions : List Action) :
    (c.performAll actions).table.get? x = ((definitions actions).get? x).or (some v) := by
  induction actions generalizing c v with
  | nil => exact h
  | cons action actions ih =>
    obtain ⟨w, hw⟩ : ∃ w, ((definitions [action]).get? x).or (some v) = some w := by
      cases (definitions [action]).get? x with
      | none => exact ⟨v, rfl⟩
      | some w => exact ⟨w, rfl⟩
    have hdefinitions : (definitions (action :: actions)).get? x =
        ((definitions actions).get? x).or ((definitions [action]).get? x) :=
      get?_overrideAll (definitions [action]) actions x
    show ((c.perform action).performAll actions).table.get? x = _
    rw [ih ((get?_perform h action).trans hw), hdefinitions, Option.or_assoc, hw]

theorem contains_performAll (h : c.table.contains x = true) (actions : List Action) :
    (c.performAll actions).table.contains x = true := by
  obtain ⟨v, hv⟩ := NameMap.contains_iff.mp h
  rw [NameMap.contains, get?_performAll hv]
  cases (definitions actions).get? x <;> rfl

/-- **A name that has a value is not asked for**, by any of the actions. -/
theorem name_ne_of_mem_exchangesOfAll (h : c.table.contains x = true) :
    ∀ e ∈ c.exchangesOfAll actions, e.name ≠ x := by
  induction actions generalizing c with
  | nil => simp [exchangesOfAll]
  | cons action actions ih =>
    intro e he
    rw [exchangesOfAll, List.mem_append] at he
    rcases he with he | he
    · cases action with
      | define name value => simp [exchangesOf] at he
      | evaluate text =>
        rintro rfl
        rw [(c.disciplined text).lacked e he] at h
        cases h
    · exact ih (contains_performAll h [action]) e he

theorem contains_perform_of_answered {action : Action} {e : Exchange} {v : Float}
    (he : e ∈ c.exchangesOf action) (hv : e.answer = .ok v) :
    (c.perform action).table.contains e.name = true := by
  cases action with
  | define name value => simp [exchangesOf] at he
  | evaluate text =>
    have hmem : (⟨e.name, .ok v⟩ : Exchange) ∈ (c.evaluate text).exchanges := by
      rw [← hv]
      exact he
    exact NameMap.contains_iff.mpr ⟨v, ((c.disciplined text).get?_iff _ v).mpr (Or.inr hmem)⟩

/-- What was defined or answered has a value afterwards. -/
theorem contains_of_supplied (h : (∃ v, Action.define x v ∈ actions) ∨
    ∃ v, (⟨x, .ok v⟩ : Exchange) ∈ c.exchangesOfAll actions) :
    (c.performAll actions).table.contains x = true := by
  induction actions generalizing c with
  | nil => simp [exchangesOfAll] at h
  | cons action actions ih =>
    simp only [exchangesOfAll, List.mem_cons, List.mem_append] at h
    show ((c.perform action).performAll actions).table.contains x = true
    rcases h with ⟨v, rfl | h⟩ | ⟨v, h | h⟩
    · exact contains_performAll (NameMap.contains_insert.mpr (Or.inl rfl)) actions
    · exact ih (Or.inl ⟨v, h⟩)
    · exact contains_performAll (contains_perform_of_answered h rfl) actions
    · exact ih (Or.inr ⟨v, h⟩)

/-- Of two requests for one name the first was not answered with a value. -/
theorem exchangesOfAll_pairwise (c : Calculator σ) (actions : List Action) :
    (c.exchangesOfAll actions).Pairwise fun a b => (∃ v, a.answer = .ok v) → b.name ≠ a.name := by
  induction actions generalizing c with
  | nil => exact List.Pairwise.nil
  | cons action actions ih =>
    refine List.pairwise_append.mpr ⟨?_, ih _, ?_⟩
    · cases action with
      | define name value => exact List.Pairwise.nil
      | evaluate text =>
        have honce := List.pairwise_map.mp (c.disciplined text).once
        exact honce.imp fun hne _ heq => hne heq.symm
    · rintro a ha b hb ⟨v, hv⟩
      exact name_ne_of_mem_exchangesOfAll (contains_perform_of_answered ha hv) b hb

/-- **No name is asked for twice**, for every calculator, every source and every list of actions: each
    evaluation keeps to the discipline; what is known stays until it is defined anew; and what was defined
    or answered before is not asked for by any later action, nor by the same evaluation. -/
theorem request_discipline (c : Calculator σ) (actions : List Action) :
    (∀ text, (c.performAll actions).Disciplined text) ∧
    (∀ later x v, (c.performAll actions).table.get? x = some v →
      (c.performAll (actions ++ later)).table.get? x = ((definitions later).get? x).or (some v)) ∧
    (∀ later x, ((∃ v, Action.define x v ∈ actions) ∨
        ∃ v, (⟨x, .ok v⟩ : Exchange) ∈ c.exchangesOfAll actions) →
      ∀ e ∈ (c.performAll actions).exchangesOfAll later, e.name ≠ x) ∧
    (c.exchangesOfAll actions).Pairwise fun a b => (∃ v, a.answer = .ok v) → b.name ≠ a.name := by
  refine ⟨disciplined _, fun later x v h => ?_, fun later x h => ?_, exchangesOfAll_pairwise c actions⟩
  · rw [performAll_append]
    exact get?_performAll h later
  · exact name_ne_of_mem_exchangesOfAll (contains_of_supplied h)

/-- A source that answers, fails and answers again: what it has answered it is not asked for again. -/
theorem request_discipline_retry :
    let c : Calculator Script := ofSource ⟨[.ok 1, .error .exhausted, .ok 2]⟩
    let actions : List Action := [.define "a" 7, .evaluate "a + x + y"]
    (c.exchangesOfAll actions).map Exchange.name = ["x", "y"] ∧
    Action.define "a" 7 ∈ actions ∧ (⟨"x", .ok 1⟩ : Exchange) ∈ c.exchangesOfAll actions ∧
    (c.performAll actions).table.get? "a" = some 7 ∧
    (∀ e ∈ (c.performAll actions).exchangesOfAll [.evaluate "x * a - y"], e.name ≠ "a" ∧ e.name ≠ "x") ∧
    (c.performAll (actions ++ [.define "a" 5])).table.get? "a" = some 5 := by
  intro c actions
  have hvalid : validate "a + x + y" = .ok () := by decide +kernel
  have hmissing : missing (c.define "a" 7).table (namesIn "a + x + y") = ["x", "y"] := by decide +kernel
  have hexchanges : c.exchangesOfAll actions = [⟨"x", .ok 1⟩, ⟨"y", .error .exhausted⟩] := by
    show ((c.define "a" 7).evaluate "a + x + y").exchanges ++ [] = _
    rw [exchanges_of_valid hvalid, requests, hmissing]
    rfl
  have hdefined : Action.define "a" 7 ∈ actions := List.mem_cons_self
  have hanswered : (⟨"x", .ok 1⟩ : Exchange) ∈ c.exchangesOfAll actions := by
    rw [hexchanges]
    exact List.mem_cons_self
  obtain ⟨-, hkept, hnever, -⟩ := request_discipline c actions
  have ha : (c.performAll actions).table.get? "a" = some 7 :=
    get?_performAll (c := c.define "a" 7) rfl [.evaluate "a + x + y"]
  refine ⟨by rw [hexchanges]; rfl, hdefined, hanswered, ha, fun e he => ⟨?_, ?_⟩, ?_⟩
  · exact hnever _ "a" (Or.inl ⟨7, hdefined⟩) e he
  · exact hnever _ "x" (Or.inr ⟨1, hanswered⟩) e he
  · exact hkept [.define "a" 5] "a" 7 ha

end Calculator

end Reckoner
