import Reckoner.Proofs.Supply.Progress

/-!
# Missing values are asked for in order, up to the first that cannot be had

`resolves_in_order`: what a resolution asks for, how it ends and what it leaves in the table, for every set of
names, every table and every source. It is put together from what is due (`missing_inOrder`), how far the
requests get (`resolve_cases`) and what the answers add (`get?_store_asked`, `size_store_asked`).
-/

set_option autoImplicit false

namespace Reckoner

variable {σ : Type} [ValueSource σ]

/-- **Missing values are asked for in order**, for every set of names, every table and every source. What is due
    are the names of the set that the table lacks, in the order of their bytes; requests are made for the first
    of them, each once. It ends well exactly if the source answers all that is due, and then every name of the
    set has a value. Otherwise the last request is the one that failed, the failure names it and has the
    source's reason, and neither that name nor one behind it has a value. In either case the table has what it
    had and the answers besides, one more entry for each. -/
theorem resolves_in_order (names : NameSet) (table : Table) (source : σ) :
    let r := resolve names table source
    ∃ due, MissingInOrder table names due ∧
      r.exchanges.map Exchange.name <+: due ∧ (r.exchanges.map Exchange.name).Nodup ∧
      askInTurn source (r.exchanges.map Exchange.name) = r.exchanges ∧
      r.source = afterAsking source (r.exchanges.map Exchange.name) ∧
      (r.outcome = .ok () ↔ ∀ e ∈ askInTurn source due, ∃ v, e.answer = .ok v) ∧
      (r.outcome = .ok () → r.exchanges = askInTurn source due ∧
        ∀ x, names.contains x = true → r.table.contains x = true) ∧
      (∀ failure, r.outcome = .error failure → ∃ answered name cause later,
        due = answered.map Exchange.name ++ name :: later ∧ failure = .unavailable name cause ∧
        r.exchanges = answered ++ [⟨name, .error cause⟩] ∧ (∀ e ∈ answered, ∃ v, e.answer = .ok v) ∧
        ∀ x ∈ name :: later, r.table.contains x = false) ∧
      (∀ x v, r.table.get? x = some v ↔
        table.get? x = some v ∨ (⟨x, .ok v⟩ : Exchange) ∈ r.exchanges) ∧
      r.table.size = table.size + r.exchanges.countP fun e => e.answer.isOk := by
  intro r
  have hexchanges : r.exchanges = asked source table names.names := resolve_exchanges names table source
  have htable : r.table = table.store (asked source table names.names) := resolve_table names table source
  refine ⟨missing table names, missing_inOrder table names, ?_, ?_, ?_, ?_,
    resolve_outcome_eq_ok_iff_answered,
    fun hok => ⟨exchanges_of_outcome_ok hok, fun x hx => resolve_contains hok hx⟩,
    fun failure hfailure => ?_, fun x v => ?_, ?_⟩
  · rw [hexchanges]
    exact map_name_asked_prefix_missing source table names
  · rw [hexchanges]
    exact map_name_asked_nodup source table names
  · rw [hexchanges]
    exact askInTurn_map_name_asked source table names
  · rw [hexchanges]
    exact resolve_source names table source
  · obtain ⟨answered, name, cause, later, h, heq⟩ := exists_stopped_of_outcome_error hfailure
    refine ⟨answered, name, cause, later, h.missing_eq, heq, ?_, h.ok, fun x hx => ?_⟩
    · rw [hexchanges, h.asked_eq]
    · rw [htable]
      exact h.contains_eq_false hx
  · rw [htable, hexchanges]
    exact get?_store_asked
  · rw [htable, hexchanges]
    exact size_store_asked source table names

/-- Of two missing names the first one is answered; what the source would say next is not asked for. -/
theorem resolves_in_order_script :
    let table : Table := NameMap.empty.insert "a" 7
    let r := resolve (NameSet.ofNames ["y", "β x", "a"]) table (⟨[.ok 1, .error .exhausted, .ok 2]⟩ : Script)
    r.exchanges.map Exchange.name = ["y", "β x"] ∧ r.outcome = .error (.unavailable "β x" .exhausted) ∧
    r.table.contains "β x" = false ∧ r.table.get? "a" = some 7 ∧ r.table.get? "y" = some 1 ∧
    r.table.size = 2 := by
  intro table r
  have hmissing : missing table (NameSet.ofNames ["y", "β x", "a"]) = ["y", "β x"] := by decide +kernel
  have hexchanges : r.exchanges = [⟨"y", .ok 1⟩, ⟨"β x", .error .exhausted⟩] := by
    have h : r.exchanges = untilFailure (askInTurn _ (missing table _)) := resolve_exchanges _ table _
    rw [h, hmissing]
    rfl
  obtain ⟨due, -, -, -, -, -, -, -, hfailed, hget, hsize⟩ :=
    resolves_in_order (NameSet.ofNames ["y", "β x", "a"]) table (⟨[.ok 1, .error .exhausted, .ok 2]⟩ : Script)
  have houtcome : r.outcome = .error (.unavailable "β x" .exhausted) := by
    have h : r.outcome = outcomeOf r.exchanges := by rw [resolve_outcome, resolve_exchanges]
    rw [h, hexchanges]
    rfl
  obtain ⟨answered, name, cause, later, -, hfailure, -, -, hlacks⟩ := hfailed _ houtcome
  cases hfailure
  refine ⟨by rw [hexchanges]; rfl, houtcome, hlacks _ List.mem_cons_self, (hget _ _).mpr (Or.inl rfl),
    (hget _ _).mpr (Or.inr ?_), ?_⟩
  · show _ ∈ r.exchanges
    simp [hexchanges]
  · rw [hsize]
    show _ + List.countP _ r.exchanges = 2
    rw [hexchanges]
    rfl

end Reckoner
