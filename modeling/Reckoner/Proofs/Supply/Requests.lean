import Reckoner.Proofs.Supply.Resolution

/-!
# The requests of a resolution

A resolution is its requests: which ones are made, and what was answered, decides everything else.

* `untilFailure` — of all that the source would say in turn, what it gets to say.
* `resolve_eq` — the requests of a resolution are those for the missing names, in order, up to the first
  failure; its outcome, the table and the source afterwards are read off them.
* `untilFailure_cases` — every answer is a value, or they end with the first that is not.
* `get?_store_eq_some_iff` — what is in a table after answers were put in.
* `Calculator.evaluate_of_known` — where every name has a value nothing is asked for.
* `Calculator.evaluate_congr_of_askInTurn` — two sources that would say the same cannot be told apart.
-/

set_option autoImplicit false

namespace Reckoner

/-! ## Requests up to the first failure -/

/-- The exchanges up to the first one that failed. -/
def untilFailure : List Exchange → List Exchange
  | [] => []
  | e :: es =>
    match e.answer with
    | .error _ => [e]
    | .ok _ => e :: untilFailure es

/-- How a resolution ends in which there were these exchanges. -/
def outcomeOf : List Exchange → Except FormulaError Unit
  | [] => .ok ()
  | e :: es =>
    match e.answer with
    | .error cause => .error (.unavailable e.name cause)
    | .ok _ => outcomeOf es

/-- The table with the value put in that an exchange brought, if it brought one. -/
def Table.storeAnswer (t : Table) (e : Exchange) : Table :=
  match e.answer with
  | .error _ => t
  | .ok value => t.insert e.name value

/-- The table with all values put in that some exchanges brought. -/
def Table.store (t : Table) (es : List Exchange) : Table :=
  es.foldl Table.storeAnswer t

theorem prefix_untilFailure (es : List Exchange) : untilFailure es <+: es := by
  induction es with
  | nil => exact List.prefix_refl []
  | cons e es ih =>
    unfold untilFailure
    split
    · exact ⟨es, rfl⟩
    · exact List.prefix_cons_inj e |>.mpr ih

theorem outcomeOf_eq_ok_iff {es : List Exchange} :
    outcomeOf es = .ok () ↔ ∀ e ∈ es, ∃ v, e.answer = .ok v := by
  induction es with
  | nil => simp [outcomeOf]
  | cons e es ih =>
    rw [outcomeOf, List.forall_mem_cons]
    cases h : e.answer with
    | error cause => simp
    | ok v => simpa using ih

/-- What comes behind the first failure has no part in how it ends. -/
theorem outcomeOf_untilFailure (es : List Exchange) : outcomeOf (untilFailure es) = outcomeOf es := by
  induction es with
  | nil => rfl
  | cons e es ih =>
    rw [untilFailure, outcomeOf]
    cases h : e.answer with
    | error cause => simp [outcomeOf, h]
    | ok v => simp [outcomeOf, h, ih]

theorem untilFailure_eq_self {es : List Exchange} (h : outcomeOf es = .ok ()) : untilFailure es = es := by
  induction es with
  | nil => rfl
  | cons e es ih =>
    obtain ⟨⟨v, hv⟩, hes⟩ := List.forall_mem_cons.mp (outcomeOf_eq_ok_iff.mp h)
    rw [untilFailure, hv]
    simp only
    rw [ih (outcomeOf_eq_ok_iff.mpr hes)]

/-- Every exchange was answered, or one failed and those in front of it were answered. -/
theorem untilFailure_cases (es : List Exchange) :
    (untilFailure es = es ∧ ∀ e ∈ es, ∃ v, e.answer = .ok v) ∨
      ∃ answered name cause back, es = answered ++ ⟨name, .error cause⟩ :: back ∧
        untilFailure es = answered ++ [⟨name, .error cause⟩] ∧ ∀ e ∈ answered, ∃ v, e.answer = .ok v := by
  induction es with
  | nil => exact Or.inl ⟨rfl, by simp⟩
  | cons e es ih =>
    obtain ⟨name, answer⟩ := e
    cases answer with
    | error cause => exact Or.inr ⟨[], name, cause, es, rfl, rfl, by simp⟩
    | ok v =>
      rcases ih with ⟨heq, hall⟩ | ⟨answered, name', cause, back, heq, hstop, hall⟩
      · refine Or.inl ⟨?_, List.forall_mem_cons.mpr ⟨⟨v, rfl⟩, hall⟩⟩
        rw [untilFailure, heq]
      · refine Or.inr ⟨⟨name, .ok v⟩ :: answered, name', cause, back, by rw [heq]; rfl, ?_,
          List.forall_mem_cons.mpr ⟨⟨v, rfl⟩, hall⟩⟩
        rw [untilFailure, hstop]
        rfl

theorem outcomeOf_append_failed {answered : List Exchange} (h : ∀ e ∈ answered, ∃ v, e.answer = .ok v)
    (name : String) (cause : SourceError) :
    outcomeOf (answered ++ [⟨name, .error cause⟩]) = .error (.unavailable name cause) := by
  induction answered with
  | nil => rfl
  | cons e answered ih =>
    obtain ⟨⟨v, hv⟩, hlater⟩ := List.forall_mem_cons.mp h
    rw [List.cons_append, outcomeOf, hv]
    exact ih hlater

/-- **What is in a table after answers were put in**, no two of them for one name. -/
theorem get?_store_eq_some_iff {es : List Exchange} (hes : (es.map Exchange.name).Nodup) {t : Table}
    {x : String} {v : Float} :
    (t.store es).get? x = some v ↔ (⟨x, .ok v⟩ : Exchange) ∈ es ∨
      (t.get? x = some v ∧ ∀ w, (⟨x, .ok w⟩ : Exchange) ∉ es) := by
  induction es generalizing t with
  | nil => simp [Table.store]
  | cons e es ih =>
    obtain ⟨name, answer⟩ := e
    rw [List.map_cons, List.nodup_cons] at hes
    obtain ⟨hnew, hes⟩ := hes
    have hother : x = name → ∀ w, (⟨x, .ok w⟩ : Exchange) ∉ es := by
      rintro rfl w hw
      exact hnew (List.mem_map.mpr ⟨_, hw, rfl⟩)
    show ((t.storeAnswer ⟨name, answer⟩).store es).get? x = some v ↔ _
    rw [ih hes]
    cases answer with
    | error cause => simp [Table.storeAnswer]
    | ok value =>
      simp only [Table.storeAnswer, NameMap.get?_insert, List.mem_cons, Exchange.mk.injEq,
        Except.ok.injEq]
      by_cases hx : x = name
      · simp [hx, hx ▸ hother hx, eq_comm]
      · simp [hx]

/-! ## Requests that are all answered -/

/-- The exchanges in which each name is answered with the value beside it. -/
def answeredWith (entries : List (String × Float)) : List Exchange :=
  entries.map fun e => ⟨e.1, .ok e.2⟩

theorem map_name_answeredWith (entries : List (String × Float)) :
    (answeredWith entries).map Exchange.name = entries.map (·.1) := by
  rw [answeredWith, List.map_map]
  rfl

theorem outcomeOf_answeredWith (entries : List (String × Float)) :
    outcomeOf (answeredWith entries) = .ok () := by
  rw [outcomeOf_eq_ok_iff]
  intro e he
  obtain ⟨⟨x, v⟩, -, rfl⟩ := List.mem_map.mp he
  exact ⟨v, rfl⟩

theorem store_answeredWith (entries : List (String × Float)) :
    Table.store NameMap.empty (answeredWith entries) = NameMap.ofList entries := by
  unfold Table.store answeredWith
  rw [List.foldl_map]
  rfl

/-! ## Asking in turn -/

variable {σ τ : Type} [ValueSource σ] [ValueSource τ]

/-- The source after it was asked for these names, one after the other. -/
def afterAsking (source : σ) (names : List String) : σ :=
  names.foldl (fun s x => (ValueSource.request s x).2) source

theorem askInTurn_cons (source : σ) (name : String) (names : List String) :
    askInTurn source (name :: names) =
      ⟨name, (ValueSource.request source name).1⟩ ::
        askInTurn (ValueSource.request source name).2 names := rfl

/-- Each name is asked for once, in order. -/
@[simp] theorem map_name_askInTurn (source : σ) (names : List String) :
    (askInTurn source names).map Exchange.name = names := by
  induction names generalizing source with
  | nil => rfl
  | cons name names ih => rw [askInTurn_cons, List.map_cons, ih]

/-- What is said first does not depend on what is asked for later. -/
theorem askInTurn_map_name_eq {source : σ} {names : List String} {es : List Exchange}
    (h : es <+: askInTurn source names) : askInTurn source (es.map Exchange.name) = es := by
  induction es generalizing source names with
  | nil => rfl
  | cons e es ih =>
    cases names with
    | nil => simp [askInTurn] at h
    | cons name names =>
      rw [askInTurn_cons, List.cons_prefix_cons] at h
      obtain ⟨rfl, h⟩ := h
      rw [List.map_cons, askInTurn_cons, ih h]

/-! ## Resolutions -/

theorem missing_empty (names : NameSet) : missing NameMap.empty names = names.names := by
  unfold missing
  exact List.filter_eq_self.mpr fun _ _ => rfl

theorem missing_eq_nil {m : Table} {names : NameSet}
    (h : ∀ x, names.contains x = true → m.contains x = true) : missing m names = [] := by
  apply List.filter_eq_nil_iff.mpr
  intro x hx
  simp [h x (NameMap.mem_names_iff.mp hx)]

/-- What is asked for the names that the table lacks. -/
def asked (source : σ) (table : Table) (names : List String) : List Exchange :=
  untilFailure (askInTurn source (names.filter fun x => !table.contains x))

theorem asked_cons_of_contains {source : σ} {table : Table} {name : String} {names : List String}
    (h : table.contains name = true) : asked source table (name :: names) = asked source table names := by
  unfold asked
  rw [List.filter_cons_of_neg (by simp [h])]

theorem asked_cons_of_error {source after : σ} {table : Table} {name : String} {names : List String}
    {cause : SourceError} (h : ¬ table.contains name = true)
    (hr : ValueSource.request source name = (.error cause, after)) :
    asked source table (name :: names) = [⟨name, .error cause⟩] := by
  unfold asked
  rw [List.filter_cons_of_pos (by simp [h]), askInTurn_cons, hr, untilFailure]

theorem asked_cons_of_ok {source after : σ} {table : Table} {name : String} {names : List String}
    {value : Float} (h : ¬ table.contains name = true) (hnew : name ∉ names)
    (hr : ValueSource.request source name = (.ok value, after)) :
    asked source table (name :: names) =
      ⟨name, .ok value⟩ :: asked after (table.insert name value) names := by
  have hfilter : (names.filter fun x => !(table.insert name value).contains x) =
      names.filter fun x => !table.contains x := by
    refine List.filter_congr fun x hx => ?_
    have hne : x ≠ name := fun heq => hnew (heq ▸ hx)
    rw [NameMap.contains_insert_of_ne hne]
  unfold asked
  rw [List.filter_cons_of_pos (by simp [h]), askInTurn_cons, hr, untilFailure, hfilter]

/-- A resolution is its requests. -/
theorem resolveEach_eq {names : List String} (hnames : names.Nodup) (table : Table) (source : σ) :
    resolveEach names table source =
      { outcome := outcomeOf (asked source table names)
        table := table.store (asked source table names)
        source := afterAsking source ((asked source table names).map Exchange.name)
        exchanges := asked source table names } := by
  induction names generalizing table source with
  | nil => rfl
  | cons name names ih =>
    obtain ⟨hnew, hnames⟩ := List.nodup_cons.mp hnames
    unfold resolveEach
    split
    · rename_i hname
      rw [asked_cons_of_contains hname, ih hnames]
    · rename_i hname
      split
      · rename_i cause after hr
        rw [asked_cons_of_error hname hr]
        simp [outcomeOf, Table.store, Table.storeAnswer, afterAsking, hr]
      · rename_i value after hr
        rw [asked_cons_of_ok hname hnew hr, ih hnames]
        simp [outcomeOf, Table.store, Table.storeAnswer, afterAsking, hr]

/-- **A resolution is its requests**: those for the missing names, up to the first failure. -/
theorem resolve_eq (names : NameSet) (table : Table) (source : σ) :
    resolve names table source =
      let requests := untilFailure (askInTurn source (missing table names))
      { outcome := outcomeOf requests
        table := table.store requests
        source := afterAsking source (requests.map Exchange.name)
        exchanges := requests } :=
  resolveEach_eq names.names_nodup table source

theorem resolve_exchanges (names : NameSet) (table : Table) (source : σ) :
    (resolve names table source).exchanges = asked source table names.names := by
  rw [resolve_eq]
  rfl

theorem resolve_outcome (names : NameSet) (table : Table) (source : σ) :
    (resolve names table source).outcome = outcomeOf (asked source table names.names) := by
  rw [resolve_eq]
  rfl

theorem resolve_source (names : NameSet) (table : Table) (source : σ) :
    (resolve names table source).source =
      afterAsking source ((asked source table names.names).map Exchange.name) := by
  rw [resolve_eq]
  rfl

theorem resolve_table (names : NameSet) (table : Table) (source : σ) :
    (resolve names table source).table = table.store (asked source table names.names) := by
  rw [resolve_eq]
  rfl


/-- All values are had if the source, asked for each of the missing names in turn, answers every time. -/
theorem resolve_outcome_eq_ok_iff_answered {names : NameSet} {table : Table} {source : σ} :
    (resolve names table source).outcome = .ok () ↔
      ∀ e ∈ askInTurn source (missing table names), ∃ v, e.answer = .ok v := by
  unfold missing
  rw [resolve_outcome, asked, outcomeOf_untilFailure, outcomeOf_eq_ok_iff]

/-! ## Evaluations -/

namespace Calculator

/-- The requests that an evaluation of the text makes behind the checks. -/
def requests (c : Calculator σ) (text : String) : List Exchange :=
  untilFailure (askInTurn c.source (missing c.table (namesIn text)))

theorem resolved_eq (c : Calculator σ) (text : String) :
    c.resolved text =
      { outcome := outcomeOf (c.requests text)
        table := c.table.store (c.requests text)
        source := afterAsking c.source ((c.requests text).map Exchange.name)
        exchanges := c.requests text } :=
  resolve_eq (namesIn text) c.table c.source

theorem table_resolved (c : Calculator σ) (text : String) :
    (c.resolved text).table = c.table.store (c.requests text) :=
  resolve_table (namesIn text) c.table c.source

theorem outcome_resolved (c : Calculator σ) (text : String) :
    (c.resolved text).outcome = outcomeOf (c.requests text) :=
  resolve_outcome (namesIn text) c.table c.source

/-- All values are to be had if each request is answered with one. -/
theorem outcome_resolved_eq_ok_iff {c : Calculator σ} {text : String} :
    (c.resolved text).outcome = .ok () ↔
      ∀ e ∈ askInTurn c.source (missing c.table (namesIn text)), ∃ v, e.answer = .ok v :=
  resolve_outcome_eq_ok_iff_answered

theorem exchanges_of_valid {c : Calculator σ} {text : String} (h : validate text = .ok ()) :
    (c.evaluate text).exchanges = c.requests text := by
  rw [(evaluate_of_valid h).2, resolved_eq]

theorem table_of_valid {c : Calculator σ} {text : String} (h : validate text = .ok ()) :
    (c.evaluate text).calculator.table = c.table.store (c.requests text) := by
  rw [(evaluate_of_valid h).1, table_resolved]

theorem source_of_valid {c : Calculator σ} {text : String} (h : validate text = .ok ()) :
    (c.evaluate text).calculator.source =
      afterAsking c.source ((c.requests text).map Exchange.name) := by
  rw [(evaluate_of_valid h).1, resolved_eq]

/-- Where every name of the text has a value nothing is asked for and nothing changes. -/
theorem evaluate_of_known {c : Calculator σ} {text : String}
    (h : ∀ x, (namesIn text).contains x = true → c.table.contains x = true) :
    (c.evaluate text).calculator = c ∧ (c.evaluate text).exchanges = [] := by
  cases hvalid : validate text with
  | error e => simp [evaluate_of_invalid hvalid]
  | ok u =>
    have hnone : c.requests text = [] := by
      rw [requests, missing_eq_nil h]
      rfl
    rw [(evaluate_of_valid hvalid).1, exchanges_of_valid hvalid, resolved_eq, hnone]
    exact ⟨rfl, rfl⟩

/-- **Two sources that would say the same cannot be told apart.** -/
theorem evaluate_congr_of_askInTurn {c : Calculator σ} {d : Calculator τ} {text : String}
    (htable : c.table = d.table)
    (hasks : askInTurn c.source (missing c.table (namesIn text)) =
      askInTurn d.source (missing d.table (namesIn text))) :
    (c.evaluate text).result = (d.evaluate text).result ∧
      (c.evaluate text).exchanges = (d.evaluate text).exchanges ∧
      (c.evaluate text).calculator.table = (d.evaluate text).calculator.table := by
  cases hvalid : validate text with
  | error e =>
    rw [evaluate_of_invalid hvalid, evaluate_of_invalid hvalid]
    exact ⟨rfl, rfl, htable⟩
  | ok u =>
    have hrequests : c.requests text = d.requests text := congrArg untilFailure hasks
    refine ⟨?_, ?_, ?_⟩
    · rw [evaluate_result_of_valid hvalid, evaluate_result_of_valid hvalid, resolved_eq, resolved_eq]
      simp only [hrequests, htable]
    · rw [exchanges_of_valid hvalid, exchanges_of_valid hvalid, hrequests]
    · rw [table_of_valid hvalid, table_of_valid hvalid, hrequests, htable]

end Calculator

end Reckoner
