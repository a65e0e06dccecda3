import Reckoner.Proofs.LookedUpNames
import Reckoner.Proofs.RequestDiscipline

/-!
# Evaluating the same text again

What an evaluation has obtained it keeps, so a later evaluation of the text has nothing left to do, or goes on
where the first one was stopped.

* `Action.Spares` — an action that defines none of these names; `Calculator.get?_performAll_of_spares`: what is
  known of them stays through any such actions.
* `Calculator.outcome_of_settled` — unless a value could not be had, every value of an accepted text was obtained;
  `evaluate_of_agree`: the text then has the same result wherever the same values are known, and nothing is asked
  for; `evaluate_again` puts both together.
* `Calculator.evaluate_resumes` — after a value could not be had the next evaluation begins with its name.
* `Calculator.evaluates_again` — both, for every calculator, every source and every text.
-/

set_option autoImplicit false

namespace Reckoner

/-- The action defines none of these names. -/
def Action.Spares (names : NameSet) : Action → Prop
  | .define name _ => names.contains name = false
  | .evaluate _ => True

/-- Definitions of other names leave the value of a name as it is. -/
theorem get?_definitions_of_spares {names : NameSet} {actions : List Action}
    (h : ∀ a ∈ actions, a.Spares names) {x : String} (hx : names.contains x = true) :
    (definitions actions).get? x = none := by
  induction actions with
  | nil => rfl
  | cons action actions ih =>
    obtain ⟨hfirst, hlater⟩ := List.forall_mem_cons.mp h
    show (Table.overrideAll (Table.override NameMap.empty action) actions).get? x = none
    rw [get?_overrideAll, ih hlater, Option.none_or]
    cases action with
    | define name value =>
      have hne : x ≠ name := by
        rintro rfl
        rw [show names.contains x = false from hfirst] at hx
        cases hx
      rw [Table.override, NameMap.get?_insert, if_neg hne, NameMap.get?_empty]
    | evaluate text => rfl

namespace Calculator

variable {σ : Type} [ValueSource σ] {c d : Calculator σ} {text : String}

/-- What is known of names stays through all actions that define none of them. -/
theorem get?_performAll_of_spares {names : NameSet} {actions : List Action}
    (h : ∀ a ∈ actions, a.Spares names) {x : String} (hx : names.contains x = true) {v : Float}
    (hv : c.table.get? x = some v) : (c.performAll actions).table.get? x = some v := by
  rw [get?_performAll hv, get?_definitions_of_spares h hx, Option.none_or]

/-! ## Nothing is left to ask for -/

/-- An evaluation reports that a value could not be had exactly if the text is accepted and obtaining its values
    failed. -/
theorem evaluate_result_eq_unavailable_iff {name : String} {cause : SourceError} :
    (c.evaluate text).result = .error ⟨text, .unavailable name cause⟩ ↔
      validate text = .ok () ∧ (c.resolved text).outcome = .error (.unavailable name cause) := by
  rw [evaluate_result_eq_error_iff]
  constructor
  · rintro ⟨-, hinvalid | ⟨hvalid, houtcome | ⟨-, hvalue⟩⟩⟩
    · cases isDefect_of_validate_eq_error hinvalid
    · exact ⟨hvalid, houtcome⟩
    · exact absurd hvalue (Evaluation.valueOf_ne_unavailable name cause)
  · rintro ⟨hvalid, houtcome⟩
    exact ⟨rfl, Or.inr ⟨hvalid, Or.inl houtcome⟩⟩

/-- Otherwise the values of an accepted text were obtained. -/
theorem outcome_of_settled (hvalid : validate text = .ok ())
    (h : ∀ name cause, (c.evaluate text).result ≠ .error ⟨text, .unavailable name cause⟩) :
    (c.resolved text).outcome = .ok () := by
  rcases resolve_cases (namesIn text) c.table c.source with ⟨hok, -⟩ | ⟨_, name, cause, _, -, hfailed⟩
  · exact hok
  · exact absurd (evaluate_result_eq_unavailable_iff.mpr ⟨hvalid, hfailed⟩) (h name cause)

/-- An accepted text whose values were obtained has the same result wherever these values are known. -/
theorem evaluate_of_agree (hvalid : validate text = .ok ()) (hok : (c.resolved text).outcome = .ok ())
    (hagree : ∀ x v, (namesIn text).contains x = true →
      (c.evaluate text).calculator.table.get? x = some v → d.table.get? x = some v) :
    (d.evaluate text).result = (c.evaluate text).result ∧ (d.evaluate text).exchanges = [] ∧
      (d.evaluate text).calculator = d := by
  rw [(evaluate_of_valid hvalid).1] at hagree
  have hobtained : ∀ x, (namesIn text).contains x = true →
      ∃ v, (c.resolved text).table.get? x = some v ∧ d.table.get? x = some v := by
    intro x hx
    obtain ⟨v, hv⟩ := NameMap.contains_iff.mp (resolve_contains hok hx)
    exact ⟨v, hv, hagree x v hx hv⟩
  have hknown : ∀ x, (namesIn text).contains x = true → d.table.contains x = true := by
    intro x hx
    obtain ⟨v, -, hv⟩ := hobtained x hx
    exact NameMap.contains_iff.mpr ⟨v, hv⟩
  obtain ⟨hcalculator, hexchanges⟩ := evaluate_of_known hknown
  have hdone : (d.resolved text).outcome = .ok () := by
    rw [outcome_resolved_eq_ok_iff, missing_eq_nil hknown]
    simp [askInTurn]
  have htable : (d.resolved text).table = d.table := by
    rw [(evaluate_of_valid hvalid).1] at hcalculator
    exact congrArg Calculator.table hcalculator
  have hvalue : valueOf d.table.get? text = valueOf (c.resolved text).table.get? text := by
    refine valueOf_congr hvalid fun x hx => ?_
    obtain ⟨v, hc, hd⟩ := hobtained x hx
    rw [hc, hd]
  refine ⟨?_, hexchanges, hcalculator⟩
  rw [evaluate_result_of_valid hvalid, evaluate_result_of_valid hvalid, hok, hdone, htable, hvalue]

/-- **Evaluated again, a settled text has the same result** with no request and no change, whatever was done in
    between but define its names. -/
theorem evaluate_again (h : ∀ name cause, (c.evaluate text).result ≠ .error ⟨text, .unavailable name cause⟩)
    {actions : List Action} (hactions : ∀ a ∈ actions, a.Spares (namesIn text)) :
    let later := (c.evaluate text).calculator.performAll actions
    (later.evaluate text).result = (c.evaluate text).result ∧ (later.evaluate text).exchanges = [] ∧
      (later.evaluate text).calculator = later := by
  intro later
  cases hvalid : validate text with
  | error e => simp [evaluate_of_invalid hvalid]
  | ok u =>
    exact evaluate_of_agree hvalid (outcome_of_settled hvalid h) fun x v hx hv =>
      get?_performAll_of_spares hactions hx hv

/-! ## Going on where the first evaluation was stopped -/

/-- The first of the requests that are made is for the first name that is missing. -/
theorem exists_exchanges_of_missing (hvalid : validate text = .ok ()) {name : String} {rest : List String}
    (h : missing c.table (namesIn text) = name :: rest) :
    ∃ asked, (c.evaluate text).exchanges.map Exchange.name = name :: asked ∧ asked <+: rest := by
  have hmade := map_name_exchanges_prefix c text
  rw [h, List.prefix_cons_iff] at hmade
  rcases hmade with hnone | hsome
  · rw [List.map_eq_nil_iff, exchanges_of_valid hvalid, requests, h, askInTurn_cons, untilFailure] at hnone
    split at hnone <;> cases hnone
  · exact hsome

/-- **After a value could not be had** the next evaluation begins with its name and goes on with those behind it;
    what was answered before is not asked for again. -/
theorem evaluate_resumes {name : String} {cause : SourceError}
    (h : (c.evaluate text).result = .error ⟨text, .unavailable name cause⟩) :
    ∃ (due rest asked : List String) (answered : List Exchange), MissingInOrder c.table (namesIn text) due ∧
      due = answered.map Exchange.name ++ name :: rest ∧
      (c.evaluate text).exchanges = answered ++ [⟨name, .error cause⟩] ∧
      (∀ e ∈ answered, ∃ v, e.answer = .ok v) ∧
      ((c.evaluate text).calculator.evaluate text).exchanges.map Exchange.name = name :: asked ∧
      asked <+: rest ∧ ∀ e ∈ answered, e.name ∉ name :: asked := by
  obtain ⟨hvalid, houtcome⟩ := evaluate_result_eq_unavailable_iff.mp h
  obtain ⟨answered, name', cause', rest, hstopped, heq⟩ := exists_stopped_of_outcome_error houtcome
  cases heq
  have hmissing : missing (c.evaluate text).calculator.table (namesIn text) = name :: rest := by
    rw [table_of_valid hvalid]
    exact hstopped.missing_store
  obtain ⟨asked, hagain, hasked⟩ := exists_exchanges_of_missing hvalid hmissing
  refine ⟨_, rest, asked, answered, missing_inOrder _ _, hstopped.missing_eq, ?_, hstopped.ok, hagain,
    hasked, fun e he hmem => ?_⟩
  · rw [exchanges_of_valid hvalid]
    exact hstopped.asked_eq
  · have honce := missing_nodup c.table (namesIn text)
    rw [hstopped.missing_eq] at honce
    have hbehind : e.name ∈ name :: rest := (List.cons_prefix_cons.mpr ⟨rfl, hasked⟩).subset hmem
    exact (List.nodup_append.mp honce).2.2 _ (List.mem_map_of_mem he) _ hbehind rfl

/-- **Evaluating the same text again**, for every calculator, every source and every text. If the first evaluation
    did not end with a value that could not be had, then a later one gives the same result, without a request
    and with nothing changed, whatever was evaluated in between and whatever other names were defined. If it did,
    then the next evaluation asks for that name first and then for some of those that were missing behind it, in
    order, and for none that was answered. -/
theorem evaluates_again (c : Calculator σ) (text : String) :
    ((∀ name cause, (c.evaluate text).result ≠ .error ⟨text, .unavailable name cause⟩) →
      ∀ actions : List Action, (∀ a ∈ actions, a.Spares (namesIn text)) →
        let later := (c.evaluate text).calculator.performAll actions
        (later.evaluate text).result = (c.evaluate text).result ∧ (later.evaluate text).exchanges = [] ∧
          (later.evaluate text).calculator = later) ∧
    ∀ name cause, (c.evaluate text).result = .error ⟨text, .unavailable name cause⟩ →
      ∃ (due rest asked : List String) (answered : List Exchange),
        MissingInOrder c.table (namesIn text) due ∧ due = answered.map Exchange.name ++ name :: rest ∧
        (c.evaluate text).exchanges = answered ++ [⟨name, .error cause⟩] ∧
        (∀ e ∈ answered, ∃ v, e.answer = .ok v) ∧
        ((c.evaluate text).calculator.evaluate text).exchanges.map Exchange.name = name :: asked ∧
        asked <+: rest ∧ ∀ e ∈ answered, e.name ∉ name :: asked :=
  ⟨fun h _ hactions => evaluate_again h hactions, fun _ _ h => evaluate_resumes h⟩

/-- The source fails at `b` and gives values for it and for `x` when it is asked again; then the text is settled. -/
theorem evaluates_again_script :
    let c : Calculator Script := ofSource ⟨[.ok 2, .error .exhausted, .ok 5, .ok 9]⟩
    let d : Calculator Script := (c.evaluate "a + b * x").calculator
    let later := (d.evaluate "a + b * x").calculator.performAll [.define "z" 1, .evaluate "z / q"]
    (c.evaluate "a + b * x").result = .error ⟨"a + b * x", .unavailable "b" .exhausted⟩ ∧
    (∃ asked, (d.evaluate "a + b * x").exchanges.map Exchange.name = "b" :: asked) ∧
    (∀ name cause, (d.evaluate "a + b * x").result ≠ .error ⟨"a + b * x", .unavailable name cause⟩) ∧
    (∀ a ∈ [Action.define "z" 1, .evaluate "z / q"], a.Spares (namesIn "a + b * x")) ∧
    (later.evaluate "a + b * x").result = (d.evaluate "a + b * x").result ∧
    (later.evaluate "a + b * x").exchanges = [] := by
  intro c d later
  have hvalid : validate "a + b * x" = .ok () := by decide +kernel
  have hmissing : missing c.table (namesIn "a + b * x") = ["a", "b", "x"] := by decide +kernel
  have hrequests : c.requests "a + b * x" = [⟨"a", .ok 2⟩, ⟨"b", .error .exhausted⟩] := by
    rw [requests, hmissing]
    rfl
  have hd : d = ⟨NameMap.empty.insert "a" 2, ⟨[.ok 5, .ok 9]⟩⟩ := by
    show (c.evaluate "a + b * x").calculator = _
    rw [(evaluate_of_valid hvalid).1, resolved_eq, hrequests]
    rfl
  have hstopped : (c.evaluate "a + b * x").result = .error ⟨"a + b * x", .unavailable "b" .exhausted⟩ := by
    rw [evaluate_result_eq_unavailable_iff, outcome_resolved, hrequests]
    exact ⟨hvalid, rfl⟩
  have hobtained : (d.resolved "a + b * x").outcome = .ok () := by
    have hmissing' : missing (NameMap.empty.insert "a" (2 : Float)) (namesIn "a + b * x") = ["b", "x"] := by
      decide +kernel
    rw [hd, outcome_resolved, requests, hmissing']
    rfl
  have hsettled : ∀ name cause,
      (d.evaluate "a + b * x").result ≠ .error ⟨"a + b * x", .unavailable name cause⟩ := by
    intro name cause h
    rw [evaluate_result_eq_unavailable_iff, hobtained] at h
    cases h.2
  have hspares : ∀ a ∈ [Action.define "z" 1, .evaluate "z / q"], a.Spares (namesIn "a + b * x") := by
    intro a ha
    rcases List.mem_pair.mp ha with rfl | rfl
    · show (namesIn "a + b * x").contains "z" = false
      decide +kernel
    · trivial
  obtain ⟨-, hresumes⟩ := evaluates_again c "a + b * x"
  obtain ⟨_, _, asked, _, -, -, -, -, hagain, -⟩ := hresumes _ _ hstopped
  obtain ⟨hsame, hnone, -⟩ := (evaluates_again d "a + b * x").1 hsettled _ hspares
  exact ⟨hstopped, ⟨asked, hagain⟩, hsettled, hspares, hsame, hnone⟩

end Calculator

end Reckoner
