import Reckoner.Proofs.LookedUpNames
import Reckoner.Session

/-!
# The table of a calculator over fixed values cannot be observed

A calculator over fixed values fills its table only as names come up, and also when an evaluation fails on
the way. `Calculator.known c` is what it knows or can still obtain; no evaluation changes this, and nothing
else decides a result.

* `known_evaluate`, `known_define` — the invariant, and the one action that changes it.
* `evaluate_result_congr` — calculators that know the same values give the same results.
* `evaluate_comm` — two evaluations may change places.
* `cache_transparent` — after any actions an evaluation gives what a single evaluation with the values of
  the source gives, those that were defined put in their place; evaluations may be put in any order.
-/

set_option autoImplicit false

namespace Reckoner

/-! ## Obtaining values from a table -/

section Resolution

variable {known : String → Option Float} {names : List String} {t m : Table}

theorem known_of_contains (hknown : ∀ x, (t.get? x).or (m.get? x) = known x) {name : String}
    (ht : t.contains name = true) : (known name).isSome = true := by
  obtain ⟨v, hv⟩ := NameMap.contains_iff.mp ht
  rw [← hknown, hv]
  rfl

theorem get?_of_not_contains {name : String} (ht : ¬ t.contains name = true) : t.get? name = none :=
  NameMap.contains_eq_false_iff.mp (by simpa using ht)

/-- What the table lacks is known if the source knows it. -/
theorem known_of_not_contains (hknown : ∀ x, (t.get? x).or (m.get? x) = known x) {name : String}
    (ht : ¬ t.contains name = true) : known name = m.get? name := by
  rw [← hknown, get?_of_not_contains ht]
  rfl

/-- What is obtained does not change what is known. -/
theorem known_insert (hknown : ∀ x, (t.get? x).or (m.get? x) = known x) {name : String} {v : Float}
    (ht : ¬ t.contains name = true) (hm : m.get? name = some v) :
    ∀ x, ((t.insert name v).get? x).or (m.get? x) = known x := by
  intro x
  rw [NameMap.get?_insert]
  split
  · rename_i hx
    rw [hx, known_of_not_contains hknown ht, hm]
    rfl
  · exact hknown x

/-- What a fixed source answers, and that it stays as it is. -/
theorem request_eq_error {name : String} {e : SourceError} {after : Table}
    (h : ValueSource.request m name = (.error e, after)) :
    m.get? name = none ∧ e = .missing name ∧ after = m := by
  have hrequest : (m.answer name, m) = (.error e, after) := h
  obtain ⟨hanswer, rfl⟩ := Prod.mk.inj hrequest
  unfold Table.answer at hanswer
  split at hanswer
  · cases hanswer
  · rename_i hm
    cases hanswer
    exact ⟨hm, rfl, rfl⟩

theorem request_eq_ok {name : String} {v : Float} {after : Table}
    (h : ValueSource.request m name = (.ok v, after)) : m.get? name = some v ∧ after = m := by
  have hrequest : (m.answer name, m) = (.ok v, after) := h
  obtain ⟨hanswer, rfl⟩ := Prod.mk.inj hrequest
  unfold Table.answer at hanswer
  split at hanswer
  · rename_i hm
    cases hanswer
    exact ⟨hm, rfl⟩
  · cases hanswer

theorem resolveEach_source : (resolveEach names t m).source = m := by
  fun_induction resolveEach names t m with
  | case1 => rfl
  | case2 _ _ _ _ _ ih => exact ih
  | case3 _ _ _ _ _ _ _ hr => exact (request_eq_error hr).2.2
  | case4 _ _ _ _ _ _ _ hr _ ih => exact ih.trans (request_eq_ok hr).2

/-- It fails at the first name that is not known. -/
theorem resolveEach_outcome (hknown : ∀ x, (t.get? x).or (m.get? x) = known x) :
    (resolveEach names t m).outcome =
      match names.find? fun x => (known x).isNone with
      | none => .ok ()
      | some x => .error (.unavailable x (.missing x)) := by
  fun_induction resolveEach names t m with
  | case1 => rfl
  | case2 name _ _ _ ht ih =>
    have hname := known_of_contains hknown ht
    rw [ih hknown, List.find?_cons_of_neg (by simpa [Option.isSome_iff_ne_none] using hname)]
  | case3 name _ _ _ ht _ _ hr =>
    obtain ⟨hm, rfl, -⟩ := request_eq_error hr
    rw [List.find?_cons_of_pos (by simp [known_of_not_contains hknown ht, hm])]
  | case4 name _ _ _ ht v _ hr _ ih =>
    obtain ⟨hm, rfl⟩ := request_eq_ok hr
    rw [List.find?_cons_of_neg (by simp [known_of_not_contains hknown ht, hm])]
    exact ih (known_insert hknown ht hm)

/-- It obtains the names in front of the first that is not known. -/
theorem resolveEach_get? (hknown : ∀ x, (t.get? x).or (m.get? x) = known x) (x : String) :
    (resolveEach names t m).table.get? x =
      (t.get? x).or (if x ∈ names.takeWhile fun y => (known y).isSome then known x else none) := by
  fun_induction resolveEach names t m with
  | case1 => simp
  | case2 name _ t _ ht ih =>
    rw [ih hknown, List.takeWhile_cons_of_pos (by simpa using known_of_contains hknown ht)]
    by_cases hx : x = name
    · obtain ⟨v, hv⟩ := NameMap.contains_iff.mp ht
      rw [hx, hv]
      rfl
    · simp [hx]
  | case3 name _ _ _ ht _ _ hr =>
    obtain ⟨hm, -, -⟩ := request_eq_error hr
    rw [List.takeWhile_cons_of_neg (by simp [known_of_not_contains hknown ht, hm])]
    simp
  | case4 name names t m ht v _ hr _ ih =>
    obtain ⟨hm, rfl⟩ := request_eq_ok hr
    have hlater := ih (known_insert hknown ht hm)
    rw [NameMap.get?_insert] at hlater
    rw [List.takeWhile_cons_of_pos (by simp [known_of_not_contains hknown ht, hm])]
    refine hlater.trans ?_
    by_cases hx : x = name
    · subst hx
      rw [if_pos rfl, if_pos List.mem_cons_self, get?_of_not_contains ht,
        known_of_not_contains hknown ht, hm]
      rfl
    · simp [hx]

end Resolution

namespace Calculator

/-! ## Evaluations over a table -/

variable {c c' : Calculator Table} {text : String}

/-- What a calculator over fixed values knows or can obtain. -/
def known (c : Calculator Table) (x : String) : Option Float :=
  (c.table.get? x).or (c.source.get? x)

/-- The names that an evaluation of the text obtains: those in front of the first that is not known. -/
def reach (c : Calculator Table) (text : String) : List String :=
  match validate text with
  | .error _ => []
  | .ok () => (namesIn text).names.takeWhile fun x => (c.known x).isSome

theorem evaluate_source : (c.evaluate text).calculator.source = c.source := by
  cases hvalid : validate text with
  | error e => rw [evaluate_of_invalid hvalid]
  | ok u =>
    rw [(evaluate_of_valid hvalid).1]
    exact resolveEach_source

theorem evaluate_get? (x : String) : (c.evaluate text).calculator.table.get? x =
    (c.table.get? x).or (if x ∈ c.reach text then c.known x else none) := by
  unfold reach
  cases hvalid : validate text with
  | error e => simp [evaluate_of_invalid hvalid]
  | ok u =>
    rw [(evaluate_of_valid hvalid).1]
    exact resolveEach_get? (fun _ => rfl) x

/-- **No evaluation changes what is known**, however it ends. -/
theorem known_evaluate : (c.evaluate text).calculator.known = c.known := by
  funext x
  rw [known, evaluate_get?, evaluate_source]
  unfold known
  cases c.table.get? x with
  | some v => rfl
  | none => split <;> cases c.source.get? x <;> rfl

theorem known_define (name : String) (value : Float) :
    (c.define name value).known = fun x => if x = name then some value else c.known x := by
  funext x
  unfold known define
  rw [NameMap.get?_insert]
  split <;> rfl

/-- After a successful resolution a name of the text has the value that was known. -/
theorem resolved_get? (h : (c.resolved text).outcome = .ok ()) {x : String}
    (hx : (namesIn text).contains x = true) : (c.resolved text).table.get? x = c.known x := by
  obtain ⟨v, hv⟩ := NameMap.contains_iff.mp (resolve_contains h hx)
  have hget : (c.resolved text).table.get? x = (c.table.get? x).or
      (if x ∈ (namesIn text).names.takeWhile fun y => (c.known y).isSome then c.known x else none) :=
    resolveEach_get? (fun _ => rfl) x
  cases ht : c.table.get? x with
  | some w => rw [hget, known, ht]; rfl
  | none =>
    rw [ht, Option.none_or] at hget
    rw [hget]
    split
    · rfl
    · rename_i hmem
      rw [if_neg hmem] at hget
      exact absurd (hget.symm.trans hv) (by simp)

/-- **Nothing else decides a result.** -/
theorem evaluate_result_congr (h : c.known = c'.known) :
    (c.evaluate text).result = (c'.evaluate text).result := by
  cases hvalid : validate text with
  | error e => rw [evaluate_of_invalid hvalid, evaluate_of_invalid hvalid]
  | ok u =>
    have houtcome : (c.resolved text).outcome = (c'.resolved text).outcome := by
      have hc : ∀ x, (c.table.get? x).or (c.source.get? x) = c.known x := fun _ => rfl
      have hc' : ∀ x, (c'.table.get? x).or (c'.source.get? x) = c.known x := fun _ => h ▸ rfl
      unfold resolved resolve
      rw [resolveEach_outcome hc, resolveEach_outcome hc']
    rw [evaluate_result_of_valid hvalid, evaluate_result_of_valid hvalid, ← houtcome]
    cases hresolved : (c.resolved text).outcome with
    | error e => rfl
    | ok u =>
      rw [valueOf_congr hvalid fun x hx => ?_]
      rw [resolved_get? hresolved hx, resolved_get? (houtcome ▸ hresolved) hx, h]

/-- **Two evaluations may change places.** -/
theorem evaluate_comm (c : Calculator Table) (a b : String) :
    ((c.evaluate a).calculator.evaluate b).calculator =
      ((c.evaluate b).calculator.evaluate a).calculator := by
  have hreach : ∀ e d : String, (c.evaluate e).calculator.reach d = c.reach d := by
    intro e d
    unfold reach
    rw [known_evaluate]
  have htable : ((c.evaluate a).calculator.evaluate b).calculator.table =
      ((c.evaluate b).calculator.evaluate a).calculator.table := by
    apply NameMap.ext_get
    intro x
    rw [evaluate_get?, evaluate_get?, evaluate_get?, evaluate_get?, known_evaluate, known_evaluate,
      hreach, hreach]
    cases c.table.get? x with
    | some v => rfl
    | none =>
      by_cases ha : x ∈ c.reach a <;> by_cases hb : x ∈ c.reach b <;> simp [ha, hb]
  have hsource : ((c.evaluate a).calculator.evaluate b).calculator.source =
      ((c.evaluate b).calculator.evaluate a).calculator.source := by
    rw [evaluate_source, evaluate_source, evaluate_source, evaluate_source]
  calc ((c.evaluate a).calculator.evaluate b).calculator
      = ⟨((c.evaluate a).calculator.evaluate b).calculator.table,
          ((c.evaluate a).calculator.evaluate b).calculator.source⟩ := rfl
    _ = ((c.evaluate b).calculator.evaluate a).calculator := by rw [htable, hsource]

/-! ## Runs -/

/-- The results of the evaluations among the actions, in order. -/
def resultsOfAll (c : Calculator Table) : List Action → List (Except Rejection Float)
  | [] => []
  | .define name value :: actions => (c.define name value).resultsOfAll actions
  | .evaluate text :: actions => (c.evaluate text).result :: (c.evaluate text).calculator.resultsOfAll actions

end Calculator

/-- The values after an action that are obtained without a calculator: a definition replaces one. -/
def Table.override (m : Table) : Action → Table
  | .define name value => m.insert name value
  | .evaluate _ => m

/-- The values, with the last definition of each name in its place. -/
def Table.overrideAll (m : Table) (actions : List Action) : Table :=
  actions.foldl Table.override m

namespace Calculator

variable {m : Table} {actions : List Action}

theorem known_ofSource : (ofSource m).known = m.get? := by
  funext x
  simp [known, ofSource]

theorem known_perform {c : Calculator Table} (h : c.known = m.get?) (action : Action) :
    (c.perform action).known = (m.override action).get? := by
  cases action with
  | define name value =>
    funext x
    rw [perform, known_define, h, Table.override, NameMap.get?_insert]
  | evaluate text => rw [perform, known_evaluate, h, Table.override]

/-- **After any actions the calculator knows the values of the source**, with those that were defined put
    in their place. -/
theorem known_performAll {c : Calculator Table} (h : c.known = m.get?) :
    (c.performAll actions).known = (m.overrideAll actions).get? := by
  induction actions generalizing c m with
  | nil => exact h
  | cons action actions ih => exact ih (known_perform h action)

theorem resultsOfAll_evaluate {c : Calculator Table} (h : c.known = m.get?) (texts : List String) :
    c.resultsOfAll (texts.map Action.evaluate) = texts.map (evaluateWith m) := by
  induction texts generalizing c with
  | nil => rfl
  | cons text texts ih =>
    rw [List.map_cons, resultsOfAll, ih (known_evaluate.trans h), List.map_cons, evaluateWith,
      evaluate_result_congr (h.trans known_ofSource.symm)]

theorem performAll_evaluate_perm (c : Calculator Table) {texts texts' : List String}
    (h : texts.Perm texts') :
    c.performAll (texts.map Action.evaluate) = c.performAll (texts'.map Action.evaluate) := by
  unfold performAll
  rw [List.foldl_map, List.foldl_map]
  exact h.foldl_eq' (fun a _ b _ c => evaluate_comm c a b) c

/-- **The table cannot be observed**: after any actions over the values `m` an evaluation gives what a
    single evaluation with these values gives, the defined ones put in their place; and evaluations without
    a definition between them may be put in any order, each with the same result and with the same
    calculator in the end. -/
theorem cache_transparent (m : Table) (actions : List Action) :
    (∀ text, (((ofSource m).performAll actions).evaluate text).result =
      evaluateWith (m.overrideAll actions) text) ∧
    ∀ texts texts' : List String, texts.Perm texts' →
      (texts.zip (((ofSource m).performAll actions).resultsOfAll (texts.map .evaluate))).Perm
        (texts'.zip (((ofSource m).performAll actions).resultsOfAll (texts'.map .evaluate))) ∧
      ((ofSource m).performAll actions).performAll (texts.map .evaluate) =
        ((ofSource m).performAll actions).performAll (texts'.map .evaluate) := by
  have hknown : ((ofSource m).performAll actions).known = (m.overrideAll actions).get? :=
    known_performAll known_ofSource
  refine ⟨fun text => evaluate_result_congr (hknown.trans known_ofSource.symm),
    fun texts texts' hperm => ⟨?_, performAll_evaluate_perm _ hperm⟩⟩
  rw [resultsOfAll_evaluate hknown, resultsOfAll_evaluate hknown, ← List.map_prod_left_eq_zip,
    ← List.map_prod_left_eq_zip]
  exact hperm.map _

theorem cache_transparent_swap :
    ["x + y", "y * 2"].Perm ["y * 2", "x + y"] ∧
      ((ofSource (NameMap.empty.insert "x" (3 : Float))).performAll [.define "y" 2]).performAll
          (["x + y", "y * 2"].map .evaluate) =
        ((ofSource (NameMap.empty.insert "x" (3 : Float))).performAll [.define "y" 2]).performAll
          (["y * 2", "x + y"].map .evaluate) :=
  have hperm : ["x + y", "y * 2"].Perm ["y * 2", "x + y"] := .swap _ _ _
  ⟨hperm, ((cache_transparent _ _).2 _ _ hperm).2⟩

end Calculator

end Reckoner
