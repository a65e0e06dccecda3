import Mathlib.Data.Finset.Card
import Reckoner.Proofs.TableEquality

/-!
# Tables are maps, whatever their history

Several tables are filled and copied in some order of steps. What has come into a table is its history, and
nothing of it counts but the last value of each name.

* `TableStep`, `tablesAfter` — an insertion into one of the tables, or a copy of one in the place of another, and
  what is in the tables after such steps. `historiesAfter` — what has come into them.
* `tablesAfter_eq` — each table is the map of its history; the induction over the steps is here.
* `LastValue`, `NameMap.get?_ofList` — the value that came last for a name is the one that is found.
* `tables_are_maps` — lookup, presence, size and comparison in terms of the histories.
-/

set_option autoImplicit false

namespace Reckoner

variable {ι : Type}

/-! ## Steps -/

/-- One step on some tables. -/
inductive TableStep (ι : Type) where
  | insert (table : ι) (name : String) (value : Float)
  | clone (copy original : ι)

/-- The table that it writes. -/
def TableStep.target : TableStep ι → ι
  | insert table _ _ => table
  | clone copy _ => copy

/-- What has come into a table, the latest at the end. -/
abbrev History := List (String × Float)

variable [DecidableEq ι]

/-- The tables after a step. -/
def TableStep.onTables (tables : ι → Table) : TableStep ι → ι → Table
  | insert table name value => Function.update tables table ((tables table).insert name value)
  | clone copy original => Function.update tables copy (tables original)

/-- The histories after a step. What has come into the original has come into its copy, and nothing else has. -/
def TableStep.onHistories (histories : ι → History) : TableStep ι → ι → History
  | insert table name value => Function.update histories table (histories table ++ [(name, value)])
  | clone copy original => Function.update histories copy (histories original)

/-- The tables after all of the steps, where all were empty before. -/
def tablesAfter (steps : List (TableStep ι)) : ι → Table :=
  steps.foldl TableStep.onTables fun _ => NameMap.empty

/-- The histories after all of the steps. -/
def historiesAfter (steps : List (TableStep ι)) : ι → History :=
  steps.foldl TableStep.onHistories fun _ => []

theorem NameMap.ofList_concat (h : History) (e : String × Float) :
    NameMap.ofList (h ++ [e]) = (NameMap.ofList h).insert e.1 e.2 :=
  List.foldl_concat _ _ _ _

/-- A step keeps each table the map of its history. -/
theorem TableStep.onTables_ofList (step : TableStep ι) (histories : ι → History) :
    step.onTables (NameMap.ofList ∘ histories) = NameMap.ofList ∘ step.onHistories histories := by
  cases step with
  | insert table name value =>
    unfold onTables onHistories
    rw [Function.comp_update, NameMap.ofList_concat]
    rfl
  | clone copy original =>
    unfold onTables onHistories
    rw [Function.comp_update]
    rfl

/-- **Each table is the map of its history.** -/
theorem tablesAfter_eq (steps : List (TableStep ι)) (i : ι) :
    tablesAfter steps i = NameMap.ofList (historiesAfter steps i) := by
  have hrun : ∀ histories : ι → History,
      steps.foldl TableStep.onTables (NameMap.ofList ∘ histories) =
        NameMap.ofList ∘ steps.foldl TableStep.onHistories histories := by
    induction steps with
    | nil => exact fun _ => rfl
    | cons step steps ih =>
      intro histories
      rw [List.foldl_cons, List.foldl_cons, step.onTables_ofList, ih]
  exact congrFun (hrun fun _ => []) i

theorem TableStep.onTables_of_ne (step : TableStep ι) (tables : ι → Table) {i : ι} (h : step.target ≠ i) :
    step.onTables tables i = tables i := by
  cases step <;> exact Function.update_of_ne (Ne.symm h) _ _

/-- Steps that write other tables leave one as it is. -/
theorem tablesAfter_append_of_ne (steps : List (TableStep ι)) {more : List (TableStep ι)} {i : ι}
    (h : ∀ step ∈ more, step.target ≠ i) : tablesAfter (steps ++ more) i = tablesAfter steps i := by
  unfold tablesAfter
  rw [List.foldl_append]
  generalize steps.foldl TableStep.onTables (fun _ => NameMap.empty) = tables
  induction more generalizing tables with
  | nil => rfl
  | cons step more ih =>
    obtain ⟨hstep, hmore⟩ := List.forall_mem_cons.mp h
    rw [List.foldl_cons, ih hmore, step.onTables_of_ne tables hstep]

theorem tablesAfter_concat_clone (steps : List (TableStep ι)) (i j k : ι) :
    tablesAfter (steps ++ [.clone i j]) k = if k = i then tablesAfter steps j else tablesAfter steps k := by
  unfold tablesAfter
  rw [List.foldl_concat]
  exact Function.update_apply _ _ _ _

/-! ## Histories -/

/-- The history has this value for the name, and no later one. -/
def LastValue (h : History) (x : String) (v : Float) : Prop :=
  ∃ before later, h = before ++ (x, v) :: later ∧ ∀ e ∈ later, e.1 ≠ x

theorem lastValue_concat {h : History} {e : String × Float} {x : String} {v : Float} :
    LastValue (h ++ [e]) x v ↔ if x = e.1 then e.2 = v else LastValue h x v := by
  constructor
  · rintro ⟨before, later, heq, hlater⟩
    rcases List.eq_nil_or_concat' later with rfl | ⟨later, d, rfl⟩
    · obtain ⟨-, hlast⟩ := List.append_inj' heq rfl
      cases hlast
      rw [if_pos rfl]
    · rw [← List.cons_append, ← List.append_assoc] at heq
      obtain ⟨hfirst, hlast⟩ := List.append_inj' heq rfl
      cases hlast
      rw [if_neg (Ne.symm (hlater e (by simp)))]
      exact ⟨before, later, hfirst, fun d hd => hlater d (by simp [hd])⟩
  · intro hvalue
    split at hvalue
    · rename_i hname
      subst hname hvalue
      exact ⟨h, [], rfl, by simp⟩
    · rename_i hne
      obtain ⟨before, later, rfl, hlater⟩ := hvalue
      refine ⟨before, later ++ [e], by simp, fun d hd => ?_⟩
      rcases List.mem_append.mp hd with hd | hd
      · exact hlater d hd
      · exact List.mem_singleton.mp hd ▸ Ne.symm hne

namespace NameMap

/-- **The value that came last is the one that is found.** -/
theorem get?_ofList {h : History} {x : String} {v : Float} :
    (ofList h).get? x = some v ↔ LastValue h x v := by
  induction h using List.reverseRecOn with
  | nil =>
    refine iff_of_false (by simp [ofList]) ?_
    rintro ⟨before, later, heq, -⟩
    simp at heq
  | append_singleton h e ih =>
    rw [ofList_concat, get?_insert, lastValue_concat]
    split
    · exact Option.some_inj
    · exact ih

theorem contains_ofList {h : History} {x : String} : (ofList h).contains x = true ↔ x ∈ h.map (·.1) := by
  unfold ofList
  rw [contains_foldl_insert]
  exact or_iff_left (by simp [contains])

/-- There are as many entries as different names have come. -/
theorem size_ofList (h : History) : (ofList h).size = (h.map (·.1)).toFinset.card := by
  have hnames : (ofList h).names.toFinset = (h.map (·.1)).toFinset := by
    ext x
    rw [List.mem_toFinset, List.mem_toFinset, mem_names_iff, contains_ofList]
  rw [← hnames, List.toFinset_card_of_nodup (ofList h).names_nodup, size, names, List.length_map]

end NameMap

/-- **Tables are maps, whatever their history**, for any number of tables and all steps. In a table the value of a
    name is the last one in the history of the table; there is one exactly if the name is in the history; and the
    size is the number of different names there. Steps that do not write a table leave it as it is, also if it is
    a copy and they write the original, or the other way round. Two tables are equal exactly if their histories
    have the same names, each with last values that are equal as doubles. So what is equal to a table does not
    depend on the order of insertions or on values that gave way to later ones: with the same last values it is
    the same table. Equality is symmetric, and a copy equals its original exactly if no value in it is a NaN. -/
theorem tables_are_maps (steps : List (TableStep ι)) (i j : ι) :
    let t := tablesAfter steps
    let h := historiesAfter steps
    (∀ x v, (t i).get? x = some v ↔ LastValue (h i) x v) ∧
    (∀ x, (t i).contains x = true ↔ x ∈ (h i).map (·.1)) ∧
    (t i).size = ((h i).map (·.1)).toFinset.card ∧
    (∀ more, (∀ step ∈ more, step.target ≠ i) → tablesAfter (steps ++ more) i = t i) ∧
    ((t i == t j) = true ↔ (∀ x, x ∈ (h i).map (·.1) ↔ x ∈ (h j).map (·.1)) ∧
      ∀ x v w, LastValue (h i) x v → LastValue (h j) x w → (v == w) = true) ∧
    (∀ (others : List (TableStep ι)) (k : ι),
      (∀ x v, LastValue (historiesAfter others k) x v ↔ LastValue (h i) x v) → tablesAfter others k = t i) ∧
    (t i == t j) = (t j == t i) ∧
    let cloned := tablesAfter (steps ++ [.clone i j])
    cloned i = t j ∧ cloned j = t j ∧
      ((cloned i == cloned j) = true ↔ ∀ x v, LastValue (h j) x v → v.isNaN = false) := by
  intro t h
  have heq : ∀ k, t k = NameMap.ofList (h k) := tablesAfter_eq steps
  have hget : ∀ k x v, (t k).get? x = some v ↔ LastValue (h k) x v := by
    intro k x v
    rw [heq, NameMap.get?_ofList]
  have hcontains : ∀ k x, (t k).contains x = true ↔ x ∈ (h k).map (·.1) := by
    intro k x
    rw [heq, NameMap.contains_ofList]
  refine ⟨hget i, hcontains i, heq i ▸ NameMap.size_ofList (h i), fun more => tablesAfter_append_of_ne steps,
    ?_, fun others k hlast => ?_, Table.beq_comm _ _, ?_⟩
  · rw [NameMap.beq_iff_names_values]
    simp only [hcontains, hget]
  · rw [tablesAfter_eq others]
    apply NameMap.ext_get
    intro x
    apply Option.ext
    intro v
    rw [NameMap.get?_ofList, hlast, hget]
  · intro cloned
    have hcopy : cloned i = t j := (tablesAfter_concat_clone steps i j i).trans (if_pos rfl)
    have horiginal : cloned j = t j := (tablesAfter_concat_clone steps i j j).trans (ite_self _)
    refine ⟨hcopy, horiginal, ?_⟩
    rw [hcopy, horiginal, Table.beq_self_iff]
    simp only [hget]

/-- A copy is changed and still equal, as the zeros are one number; two insertions make the same table as three,
    one of which was for nothing; and with a NaN in it a table differs from its copy. -/
theorem tables_are_maps_zeros :
    let steps : List (TableStep (Fin 2)) :=
      [.insert 0 "x" 1, .insert 0 "y" 0, .insert 0 "x" 4, .clone 1 0, .insert 1 "y" (-0.0)]
    (tablesAfter steps 0).get? "x" = some 4 ∧ (tablesAfter steps 1).size = 2 ∧
    (tablesAfter steps 0 == tablesAfter steps 1) = true ∧
    tablesAfter (steps ++ [.insert 1 "x" 9, .clone 1 1]) 0 = tablesAfter steps 0 ∧
    tablesAfter [.insert (1 : Fin 2) "y" 0, .insert 1 "x" 4] 1 = tablesAfter steps 0 ∧
    let more : List (TableStep (Fin 2)) := steps ++ [.insert 0 "z" (0 / 0)]
    (tablesAfter (more ++ [.clone 1 0]) 1 == tablesAfter (more ++ [.clone 1 0]) 0) = false := by
  intro steps
  have hfirst : historiesAfter steps 0 = [("x", 1), ("y", 0), ("x", 4)] := rfl
  have hsecond : historiesAfter steps 1 = [("x", 1), ("y", 0), ("x", 4), ("y", -0.0)] := rfl
  obtain ⟨hget, -, -, hrest, hequal, hsame, -, -⟩ := tables_are_maps steps 0 1
  obtain ⟨-, -, hsize, -⟩ := tables_are_maps steps 1 0
  have hx : LastValue (historiesAfter steps 0) "x" 4 := ⟨[("x", 1), ("y", 0)], [], hfirst, by simp⟩
  refine ⟨(hget "x" 4).mpr hx, hsize.trans (by rw [hsecond]; decide), hequal.mpr ⟨fun x => ?_, fun x v w => ?_⟩,
    hrest _ (by simp [TableStep.target]), hsame _ 1 fun x v => ?_, ?_⟩
  · rw [hfirst, hsecond]
    simp only [List.map_cons, List.map_nil, List.mem_cons, List.not_mem_nil, or_false]
    tauto
  · rw [hfirst, hsecond, ← NameMap.get?_ofList, ← NameMap.get?_ofList]
    simp only [NameMap.ofList, List.foldl_cons, List.foldl_nil, NameMap.get?_insert, NameMap.get?_empty]
    intro hv hw
    by_cases hx : x = "x"
    · subst hx
      cases hv
      cases hw
      decide +kernel
    · by_cases hy : x = "y"
      · subst hy
        cases hv
        cases hw
        decide +kernel
      · simp [hx, hy] at hv
  · rw [hfirst, ← NameMap.get?_ofList, ← NameMap.get?_ofList]
    show (NameMap.ofList [("y", 0), ("x", 4)]).get? x = some v ↔ _
    simp only [NameMap.ofList, List.foldl_cons, List.foldl_nil, NameMap.get?_insert, NameMap.get?_empty]
    by_cases hx : x = "x" <;> simp [hx]
  · intro more
    obtain ⟨-, -, -, -, -, -, -, -, -, hnan⟩ := tables_are_maps more 1 0
    have hz : LastValue (historiesAfter more 0) "z" (0 / 0) := ⟨[("x", 1), ("y", 0), ("x", 4)], [], rfl, by simp⟩
    rw [← Bool.not_eq_true]
    intro hself
    exact absurd (hnan.mp hself "z" _ hz) (by decide +kernel)

end Reckoner
