import Reckoner.Proofs.NameOrder
import Reckoner.Proofs.Supply.Requests

/-!
# How far a resolution gets

`asked source table names.names` are the requests for the missing names of a set, up to the first failure.

* `MissingInOrder` — the missing names in the order of their bytes; `missing_inOrder`: these are due to be asked.
* `map_name_asked_prefix_missing` — the names that are asked for are the first of these.
* `get?_store_asked`, `size_store_asked` — what the answers add to the table.
* `Stopped`, `resolve_cases` — every request is answered, or all but the last one are;
  `exists_stopped_of_outcome_error`: which of the two it is can be told from the outcome.
* `Stopped.missing_store` — what is missing then: the name that could not be had and those behind it.
-/

set_option autoImplicit false

namespace Reckoner

variable {σ : Type} [ValueSource σ] {source : σ} {table : Table} {names : NameSet}

/-! ## What is due -/

/-- These are the names of the set that the table lacks, in the order of their bytes. -/
structure MissingInOrder (table : Table) (names : NameSet) (due : List String) : Prop where
  ascending : due.Pairwise fun x y => utf8Bytes x < utf8Bytes y
  mem_iff : ∀ x, x ∈ due ↔ names.contains x = true ∧ table.contains x = false

theorem mem_missing_iff {x : String} :
    x ∈ missing table names ↔ names.contains x = true ∧ table.contains x = false := by
  unfold missing
  rw [List.mem_filter, NameMap.mem_names_iff, Bool.not_eq_true']

theorem missing_nodup (table : Table) (names : NameSet) : (missing table names).Nodup :=
  names.names_nodup.filter _

/-- What is asked for, one name after the other, are the missing names in order. -/
theorem missing_inOrder (table : Table) (names : NameSet) :
    MissingInOrder table names (missing table names) where
  ascending := names.names_pairwise_utf8Bytes_lt.filter _
  mem_iff _ := mem_missing_iff

/-- What is missing once the table has grown was missing before. -/
theorem missing_eq_filter {grown : Table} (h : ∀ x, table.contains x = true → grown.contains x = true) :
    missing grown names = (missing table names).filter fun x => !grown.contains x := by
  unfold missing
  rw [List.filter_filter]
  refine List.filter_congr fun x _ => ?_
  cases hx : table.contains x with
  | true => simp [h x hx]
  | false => simp

/-! ## What is asked -/

theorem map_name_asked_prefix_missing (source : σ) (table : Table) (names : NameSet) :
    (asked source table names.names).map Exchange.name <+: missing table names := by
  have h := (prefix_untilFailure (askInTurn source (missing table names))).map Exchange.name
  rwa [map_name_askInTurn] at h

theorem map_name_asked_nodup (source : σ) (table : Table) (names : NameSet) :
    ((asked source table names.names).map Exchange.name).Nodup :=
  (missing_nodup table names).sublist (map_name_asked_prefix_missing source table names).sublist

theorem name_mem_missing_of_asked {e : Exchange} (h : e ∈ asked source table names.names) :
    e.name ∈ missing table names :=
  (map_name_asked_prefix_missing source table names).subset (List.mem_map_of_mem h)

theorem contains_eq_false_of_mem_asked {e : Exchange} (h : e ∈ asked source table names.names) :
    table.contains e.name = false :=
  (mem_missing_iff.mp (name_mem_missing_of_asked h)).2

/-- The answers are those of the source to these requests. -/
theorem askInTurn_map_name_asked (source : σ) (table : Table) (names : NameSet) :
    askInTurn source ((asked source table names.names).map Exchange.name) = asked source table names.names :=
  askInTurn_map_name_eq (prefix_untilFailure _)

/-! ## What the answers add -/

/-- **What is in the table afterwards** was there before, or was answered. -/
theorem get?_store_asked {x : String} {v : Float} :
    (table.store (asked source table names.names)).get? x = some v ↔
      table.get? x = some v ∨ (⟨x, .ok v⟩ : Exchange) ∈ asked source table names.names := by
  rw [get?_store_eq_some_iff (map_name_asked_nodup source table names)]
  constructor
  · rintro (h | ⟨h, -⟩)
    · exact Or.inr h
    · exact Or.inl h
  · rintro (h | h)
    · refine Or.inr ⟨h, fun w hw => ?_⟩
      -- what has a value is not asked for
      have hnone := NameMap.contains_eq_false_iff.mp (contains_eq_false_of_mem_asked hw)
      rw [h] at hnone
      cases hnone
    · exact Or.inl h

theorem contains_store_asked {x : String} :
    (table.store (asked source table names.names)).contains x = true ↔
      table.contains x = true ∨ ∃ v, (⟨x, .ok v⟩ : Exchange) ∈ asked source table names.names := by
  simp only [NameMap.contains_iff, get?_store_asked, exists_or]

theorem size_store {es : List Exchange} (hes : (es.map Exchange.name).Nodup) {t : Table}
    (hnew : ∀ e ∈ es, t.contains e.name = false) :
    (t.store es).size = t.size + es.countP fun e => e.answer.isOk := by
  induction es generalizing t with
  | nil => rfl
  | cons e es ih =>
    obtain ⟨name, answer⟩ := e
    rw [List.map_cons, List.nodup_cons] at hes
    obtain ⟨hother, hrest⟩ := hes
    obtain ⟨hname, hlater⟩ := List.forall_mem_cons.mp hnew
    show ((t.storeAnswer ⟨name, answer⟩).store es).size = _
    cases answer with
    | error cause =>
      rw [List.countP_cons_of_neg (by simp [Except.isOk, Except.toBool])]
      exact ih hrest hlater
    | ok value =>
      have hstill : ∀ e ∈ es, (t.insert name value).contains e.name = false := by
        intro e he
        have hne : e.name ≠ name := fun heq => hother (List.mem_map.mpr ⟨e, he, heq⟩)
        rw [NameMap.contains_insert_of_ne hne, hlater e he]
      rw [List.countP_cons_of_pos rfl, Table.storeAnswer, ih hrest hstill, NameMap.size_insert, hname,
        if_neg Bool.false_ne_true]
      omega

theorem size_store_asked (source : σ) (table : Table) (names : NameSet) :
    (table.store (asked source table names.names)).size =
      table.size + (asked source table names.names).countP fun e => e.answer.isOk :=
  size_store (map_name_asked_nodup source table names) fun _ => contains_eq_false_of_mem_asked

/-! ## Where it stops -/

theorem missing_store_asked (source : σ) (table : Table) (names : NameSet) :
    missing (table.store (asked source table names.names)) names =
      (missing table names).filter fun x =>
        !(table.store (asked source table names.names)).contains x :=
  missing_eq_filter fun _ hx => contains_store_asked.mpr (Or.inl hx)

/-- The requests up to one that failed: the names that were answered, the one that was not, and the rest. -/
structure Stopped (source : σ) (table : Table) (names : NameSet) (answered : List Exchange) (name : String)
    (cause : SourceError) (later : List String) : Prop where
  missing_eq : missing table names = answered.map Exchange.name ++ name :: later
  asked_eq : asked source table names.names = answered ++ [⟨name, .error cause⟩]
  ok : ∀ e ∈ answered, ∃ v, e.answer = .ok v

namespace Stopped

variable {answered : List Exchange} {name : String} {cause : SourceError} {later : List String}

theorem outcome_eq (h : Stopped source table names answered name cause later) :
    outcomeOf (asked source table names.names) = .error (.unavailable name cause) := by
  rw [h.asked_eq]
  exact outcomeOf_append_failed h.ok name cause

/-- The name that could not be had and those behind it have no value afterwards. -/
theorem contains_eq_false (h : Stopped source table names answered name cause later) {x : String}
    (hx : x ∈ name :: later) :
    (table.store (asked source table names.names)).contains x = false := by
  have hnodup := missing_nodup table names
  rw [h.missing_eq] at hnodup
  have hmissing : x ∈ missing table names := h.missing_eq ▸ List.mem_append_right _ hx
  rw [← Bool.not_eq_true, contains_store_asked, h.asked_eq]
  rintro (hold | ⟨v, hv⟩)
  · rw [(mem_missing_iff.mp hmissing).2] at hold
    cases hold
  · -- an answer belongs to a name in front of these
    rcases List.mem_append.mp hv with hv | hv
    · exact (List.nodup_append.mp hnodup).2.2 x (List.mem_map_of_mem hv) x hx rfl
    · cases List.mem_singleton.mp hv

/-- **What is missing afterwards** is what could not be had and what comes behind it. -/
theorem missing_store (h : Stopped source table names answered name cause later) :
    missing (table.store (asked source table names.names)) names = name :: later := by
  have hanswered : ∀ x ∈ answered.map Exchange.name,
      (table.store (asked source table names.names)).contains x = true := by
    intro x hx
    obtain ⟨e, he, rfl⟩ := List.mem_map.mp hx
    obtain ⟨v, hv⟩ := h.ok e he
    refine contains_store_asked.mpr (Or.inr ⟨v, ?_⟩)
    rw [h.asked_eq, ← hv]
    exact List.mem_append_left _ he
  rw [missing_store_asked, h.missing_eq, List.filter_append,
    List.filter_eq_nil_iff.mpr fun x hx => by simp [hanswered x hx],
    List.filter_eq_self.mpr fun x hx => by simp [h.contains_eq_false hx], List.nil_append]

end Stopped

/-- **Every request is answered, or all but the last one are**, and that one is the failure. -/
theorem resolve_cases (names : NameSet) (table : Table) (source : σ) :
    ((resolve names table source).outcome = .ok () ∧
      (resolve names table source).exchanges = askInTurn source (missing table names)) ∨
    ∃ answered name cause later, Stopped source table names answered name cause later ∧
      (resolve names table source).outcome = .error (.unavailable name cause) := by
  rcases untilFailure_cases (askInTurn source (missing table names)) with
    ⟨hstop, hall⟩ | ⟨answered, name, cause, back, heq, hstop, hall⟩
  · exact Or.inl ⟨resolve_outcome_eq_ok_iff_answered.mpr hall, (resolve_exchanges ..).trans hstop⟩
  · have hstopped : Stopped source table names answered name cause (back.map Exchange.name) := by
      refine ⟨?_, hstop, hall⟩
      rw [← map_name_askInTurn source (missing table names), heq, List.map_append, List.map_cons]
    exact Or.inr ⟨answered, name, cause, _, hstopped, (resolve_outcome ..).trans hstopped.outcome_eq⟩

theorem exchanges_of_outcome_ok (h : (resolve names table source).outcome = .ok ()) :
    (resolve names table source).exchanges = askInTurn source (missing table names) := by
  rcases resolve_cases names table source with ⟨-, heq⟩ | ⟨_, _, _, _, -, hfailed⟩
  · exact heq
  · rw [h] at hfailed
    cases hfailed

theorem exists_stopped_of_outcome_error {failure : FormulaError}
    (h : (resolve names table source).outcome = .error failure) :
    ∃ answered name cause later, Stopped source table names answered name cause later ∧
      failure = .unavailable name cause := by
  rcases resolve_cases names table source with ⟨hok, -⟩ | ⟨answered, name, cause, later, hstopped, hfailed⟩
  · rw [h] at hok
    cases hok
  · rw [h] at hfailed
    exact ⟨answered, name, cause, later, hstopped, Except.error.inj hfailed⟩

end Reckoner
