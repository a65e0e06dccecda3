import Reckoner.Proofs.CacheTransparency
import Reckoner.Proofs.NameOrder
import Reckoner.Proofs.RequestDiscipline
import Reckoner.Proofs.Supply.ConsoleLines

/-!
# All ways of supplying values agree

Values can be looked up by name in a table, be defined beforehand, or be typed line by line for names that the
lines do not mention. `ways_of_supply`: a text has the same result in each way if it is given the same values,
and among values that lack some of its names it fails at the first of these.

* `performAll_define` — definitions in any order make the table they come from.
* `Console.askInTurn_eq_of_supplies` — lines in the order of the names are the answers of the table.
* `evaluateWith_of_missing` — where an evaluation over a table stops.
-/

set_option autoImplicit false

namespace Reckoner

/-! ## Entries in any order -/

/-- The entries of a table, put in one after the other in any order, make the table. -/
theorem ofList_eq_of_perm {m : Table} {entries : List (String × Float)} (h : entries.Perm m.entries) :
    NameMap.ofList entries = m := by
  have hnames : ((answeredWith entries).map Exchange.name).Nodup := by
    rw [map_name_answeredWith]
    exact (h.map _).nodup_iff.mpr m.names_nodup
  apply NameMap.ext_get
  intro x
  apply Option.ext
  intro v
  rw [← store_answeredWith, get?_store_eq_some_iff hnames, NameMap.get?_empty,
    NameMap.get?_eq_some_iff (m := m), ← h.mem_iff]
  simp [answeredWith]

namespace Calculator

section Source

variable {σ : Type} [ValueSource σ] {c : Calculator σ} {text : String}

theorem performAll_map_define (c : Calculator σ) (entries : List (String × Float)) :
    c.performAll (entries.map fun e => .define e.1 e.2) =
      ⟨entries.foldl (fun m e => m.insert e.1 e.2) c.table, c.source⟩ := by
  induction entries generalizing c with
  | nil => rfl
  | cons e entries ih => exact ih (c.define e.1 e.2)

/-- A calculator with all entries of a table defined, in any order, has this table. -/
theorem performAll_define {m : Table} {entries : List (String × Float)} (h : entries.Perm m.entries)
    (source : σ) :
    (ofSource source).performAll (entries.map fun e => .define e.1 e.2) = ⟨m, source⟩ := by
  rw [performAll_map_define, ← ofList_eq_of_perm h]
  rfl

/-- Where nothing is missing nothing is asked for. -/
theorem exchanges_eq_nil (h : ∀ x, (namesIn text).contains x = true → c.table.contains x = true) :
    (c.evaluate text).exchanges = [] ∧ (c.evaluate text).calculator.source = c.source := by
  obtain ⟨hsame, hnone⟩ := evaluate_of_known h
  exact ⟨hnone, congrArg Calculator.source hsame⟩

/-- A calculator with these values gives what an evaluation with them gives, whatever its source. -/
theorem evaluate_result_of_table {m : Table}
    (h : ∀ x, (namesIn text).contains x = true → m.contains x = true) (source : σ) :
    ((⟨m, source⟩ : Calculator σ).evaluate text).result = evaluateWith m text := by
  have hknown : (⟨m, m⟩ : Calculator Table).known = (ofSource m).known := by
    rw [known_ofSource]
    funext x
    exact Option.or_self
  have hasks : askInTurn source (missing m (namesIn text)) = askInTurn m (missing m (namesIn text)) := by
    rw [missing_eq_nil h]
    rfl
  have hsame : ((⟨m, source⟩ : Calculator σ).evaluate text).result =
      ((⟨m, m⟩ : Calculator Table).evaluate text).result :=
    (evaluate_congr_of_askInTurn (c := ⟨m, source⟩) (d := ⟨m, m⟩) rfl hasks).1
  exact hsame.trans (evaluate_result_congr hknown)

end Source

end Calculator

/-! ## Lines for names -/

theorem askInTurn_table (m : Table) (names : List String) :
    askInTurn m names = names.map fun x => ⟨x, m.answer x⟩ := by
  induction names with
  | nil => rfl
  | cons name names ih => exact congrArg (⟨name, m.answer name⟩ :: ·) ih

/-- The first lines of the console are the values that the table has for these names, in this order and one
    line for each, written as numerals with white space around them. -/
def Console.Supplies (c : Console) (m : Table) (names : List String) : Prop :=
  ∀ (i : Nat) (x : String), names[i]? = some x → ∃ (line : Bytes) (lead body trail : List Char) (v : Float),
    (lines c.unread)[i]? = some line ∧ decodeUtf8 line = some (String.ofList (lead ++ body ++ trail)) ∧
    (∀ c ∈ lead, isWhiteSpace c = true) ∧ (∀ c ∈ trail, isWhiteSpace c = true) ∧
    Decimal.read body = .ok v ∧ m.get? x = some v

/-- Lines in the order of the names are the answers of the table. -/
theorem Console.askInTurn_eq_of_supplies {c : Console} {m : Table} {names : List String}
    (h : c.Supplies m names) : askInTurn c names = askInTurn m names := by
  rw [Console.askInTurn_eq, askInTurn_table]
  apply List.ext_getElem?
  intro i
  rw [List.getElem?_mapIdx, List.getElem?_map]
  cases hx : names[i]? with
  | none => rfl
  | some x =>
    obtain ⟨line, lead, body, trail, v, hline, hdecode, hlead, htrail, hread, hv⟩ := h i x hx
    have hgives : Gives line v := gives_iff.mpr ⟨lead, body, trail, hdecode, hlead, htrail, hread⟩
    have hanswer : answerOfLine line = .ok v :=
      answerOfLine_eq_ok_iff.mpr ⟨ne_nil_of_mem_lines (List.mem_of_getElem? hline), hgives⟩
    have htable : m.answer x = .ok v := by
      unfold Table.answer
      rw [hv]
    rw [Option.map_some, Option.map_some, List.getD_eq_getElem?_getD, hline, Option.getD_some, hanswer,
      htable]

/-! ## The first missing name -/

/-- In an ascending list the first name with a property is the least one. -/
theorem find?_names {names : NameSet} {p : String → Bool} (h : ∃ x, names.contains x = true ∧ p x = true) :
    ∃ x, names.names.find? p = some x ∧ names.contains x = true ∧ p x = true ∧
      ∀ y, names.contains y = true → p y = true → y ≠ x → utf8Bytes x < utf8Bytes y := by
  obtain ⟨z, hz, hpz⟩ := h
  cases hfind : names.names.find? p with
  | none =>
    have hnone := List.find?_eq_none.mp hfind z (NameMap.mem_names_iff.mpr hz)
    exact absurd hpz hnone
  | some x =>
    obtain ⟨hpx, front, back, hsplit, hfront⟩ := List.find?_eq_some_iff_append.mp hfind
    have hx : names.contains x = true := NameMap.mem_names_iff.mp (hsplit ▸ by simp)
    refine ⟨x, rfl, hx, hpx, fun y hy hpy hne => ?_⟩
    have hascending : names.names.Pairwise fun x y => x < y := List.pairwise_map.mpr names.ascending
    have hy := NameMap.mem_names_iff.mpr hy
    rw [hsplit] at hascending hy
    rcases List.mem_append.mp hy with hy | hy
    · have hnot := hfront y hy
      rw [hpy] at hnot
      cases hnot
    · rcases List.mem_cons.mp hy with hy | hy
      · exact absurd hy hne
      · obtain ⟨-, htail, -⟩ := List.pairwise_append.mp hascending
        exact lt_iff_utf8Bytes_lt.mp ((List.pairwise_cons.mp htail).1 y hy)

namespace Calculator

variable {m : Table} {text : String}

/-- Among values that lack some of the names an evaluation fails at the first of these. -/
theorem evaluateWith_of_missing (hvalid : validate text = .ok ())
    (h : ∃ x, (namesIn text).contains x = true ∧ m.get? x = none) :
    ∃ x, (namesIn text).contains x = true ∧ m.get? x = none ∧
      (∀ y, (namesIn text).contains y = true → m.get? y = none → y ≠ x → utf8Bytes x < utf8Bytes y) ∧
      evaluateWith m text = .error ⟨text, .unavailable x (.missing x)⟩ := by
  have hlacks : ∃ x, (namesIn text).contains x = true ∧ (m.get? x).isNone = true := by
    simpa only [Option.isNone_iff_eq_none] using h
  obtain ⟨x, hfind, hx, hnone, hleast⟩ := find?_names hlacks
  simp only [Option.isNone_iff_eq_none] at hnone hleast
  refine ⟨x, hx, hnone, hleast, evaluate_result_eq_error_iff.mpr ⟨rfl, Or.inr ⟨hvalid, Or.inl ?_⟩⟩⟩
  have hknown : ∀ y, ((NameMap.empty : Table).get? y).or (m.get? y) = m.get? y := fun _ => rfl
  have houtcome : ((ofSource m).resolved text).outcome = _ := resolveEach_outcome hknown
  rw [houtcome, hfind]

/-- **All ways of supplying values agree**, for every text. With a value for each of its names the result is
    that of an evaluation with these values, whether they were defined beforehand, in any order and over
    any source, which is not asked then; or are typed, one line for each name in the order of bytes.
    Without some of the values the evaluation names the first missing one. -/
theorem ways_of_supply (m : Table) (text : String) :
    ((∀ x, (namesIn text).contains x = true → m.contains x = true) →
      (∀ (σ : Type) [ValueSource σ] (source : σ) (entries : List (String × Float)),
        entries.Perm m.entries →
        let c := (ofSource source).performAll (entries.map fun e => .define e.1 e.2)
        (c.evaluate text).result = evaluateWith m text ∧ (c.evaluate text).exchanges = [] ∧
          (c.evaluate text).calculator.source = source) ∧
      ∀ (console : Console) (names : List String), NamesInOrder text names → console.Supplies m names →
        ((ofSource console).evaluate text).result = evaluateWith m text) ∧
    (validate text = .ok () → (∃ x, (namesIn text).contains x = true ∧ m.get? x = none) →
      ∃ x, (namesIn text).contains x = true ∧ m.get? x = none ∧
        (∀ y, (namesIn text).contains y = true → m.get? y = none → y ≠ x → utf8Bytes x < utf8Bytes y) ∧
        evaluateWith m text = .error ⟨text, .unavailable x (.missing x)⟩) := by
  refine ⟨fun hall => ⟨fun σ _ source entries hperm => ?_, fun console names hnames hsupplies => ?_⟩,
    evaluateWith_of_missing⟩
  · simp only [performAll_define hperm source]
    exact ⟨evaluate_result_of_table hall source, exchanges_eq_nil hall⟩
  · have hasks : askInTurn console (missing NameMap.empty (namesIn text)) =
        askInTurn m (missing NameMap.empty (namesIn text)) := by
      rw [missing_empty, ← namesInOrder_iff.mp hnames]
      exact Console.askInTurn_eq_of_supplies hsupplies
    exact (evaluate_congr_of_askInTurn (c := ofSource console) (d := ofSource m) rfl hasks).1

/-- Two values in each of the ways, and then none at all. -/
theorem ways_of_supply_difference : ∃ v w : Float,
    let m : Table := (NameMap.empty.insert "x" v).insert "y" w
    let defined : Calculator Script :=
      (ofSource ⟨[]⟩).performAll ([("y", w), ("x", v)].map fun e => .define e.1 e.2)
    let typed : Calculator Console := ofSource ⟨utf8Bytes "\t2 \r\n3", ""⟩
    (∀ x, (namesIn "y - x").contains x = true → m.contains x = true) ∧
    [("y", w), ("x", v)].Perm m.entries ∧ typed.source.Supplies m ["x", "y"] ∧
    (defined.evaluate "y - x").result = evaluateWith m "y - x" ∧
    (typed.evaluate "y - x").result = evaluateWith m "y - x" ∧
    validate "z * (y - a)" = .ok () ∧
    evaluateWith NameMap.empty "z * (y - a)" = .error ⟨"z * (y - a)", .unavailable "a" (.missing "a")⟩ := by
  obtain ⟨v, hv⟩ : ∃ v, Decimal.read ['2'] = .ok v :=
    (Decimal.read_isOk_iff (List.all_eq_true.mp rfl)).mpr rfl
  obtain ⟨w, hw⟩ : ∃ w, Decimal.read ['3'] = .ok w :=
    (Decimal.read_isOk_iff (List.all_eq_true.mp rfl)).mpr rfl
  refine ⟨v, w, ?_⟩
  intro m defined typed
  have hentries : m.entries = [("x", v), ("y", w)] := by
    have hless : ¬ "y" < "x" := by decide +kernel
    have hne : "y" ≠ "x" := by decide
    show NameMap.insertEntry "y" w [("x", v)] = _
    rw [NameMap.insertEntry, if_neg hless, if_neg hne, NameMap.insertEntry]
  have hx : m.get? "x" = some v := NameMap.get?_eq_some_iff.mpr (by simp [hentries])
  have hy : m.get? "y" = some w := NameMap.get?_eq_some_iff.mpr (by simp [hentries])
  have hnames : (namesIn "y - x").names = ["x", "y"] := by decide +kernel
  have hall : ∀ x, (namesIn "y - x").contains x = true → m.contains x = true := by
    intro x hmem
    rw [← NameMap.mem_names_iff, hnames] at hmem
    rcases List.mem_pair.mp hmem with rfl | rfl
    · exact NameMap.contains_iff.mpr ⟨v, hx⟩
    · exact NameMap.contains_iff.mpr ⟨w, hy⟩
  have hperm : [("y", w), ("x", v)].Perm m.entries := hentries ▸ .swap _ _ _
  have hlines : lines typed.source.unread = [utf8Bytes "\t2 \r\n", utf8Bytes "3"] := by decide +kernel
  have hsupplies : typed.source.Supplies m ["x", "y"] := by
    intro i x hi
    rcases i with _ | _ | i
    · cases hi
      exact ⟨_, ['\t'], ['2'], [' ', '\r', '\n'], v, by rw [hlines]; rfl, decodeUtf8_toUTF8 _,
        List.all_eq_true.mp rfl, List.all_eq_true.mp rfl, hv, hx⟩
    · cases hi
      exact ⟨_, [], ['3'], [], w, by rw [hlines]; rfl, decodeUtf8_toUTF8 _, by simp, by simp, hw, hy⟩
    · cases hi
  have hvalid : validate "z * (y - a)" = .ok () := by decide +kernel
  obtain ⟨hagree, -⟩ := ways_of_supply m "y - x"
  obtain ⟨hdefined, htyped⟩ := hagree hall
  refine ⟨hall, hperm, hsupplies, (hdefined Script ⟨[]⟩ _ hperm).1,
    htyped typed.source ["x", "y"] (namesInOrder_iff.mpr hnames.symm) hsupplies, hvalid, ?_⟩
  have hmissing : (namesIn "z * (y - a)").names = ["a", "y", "z"] := by decide +kernel
  obtain ⟨x, hmem, -, hleast, hresult⟩ :=
    (ways_of_supply NameMap.empty "z * (y - a)").2 hvalid ⟨"a", by decide +kernel, rfl⟩
  rw [← NameMap.mem_names_iff, hmissing] at hmem
  simp only [List.mem_cons, List.not_mem_nil, or_false] at hmem
  rcases hmem with rfl | rfl | rfl
  · exact hresult
  · exact absurd (hleast "a" (by decide +kernel) rfl (by decide)) (by decide +kernel)
  · exact absurd (hleast "a" (by decide +kernel) rfl (by decide)) (by decide +kernel)

end Calculator

end Reckoner
