import Reckoner.NameMap

/-!
# Presence of names

What `contains` and `names` say, in terms of the values: insertion adds one name, a set made of a list
contains the names of the list, `names` lists each name that is present once, and `size` counts them.
-/

set_option autoImplicit false

namespace Reckoner.NameMap

variable {α : Type}

theorem contains_iff {m : NameMap α} {x : String} : m.contains x = true ↔ ∃ v, m.get? x = some v := by
  rw [contains, Option.isSome_iff_exists]

theorem contains_eq_false_iff {m : NameMap α} {x : String} : m.contains x = false ↔ m.get? x = none := by
  rw [contains, Option.isSome_eq_false_iff, Option.isNone_iff_eq_none]

theorem contains_insert {m : NameMap α} {name : String} {value : α} {x : String} :
    (m.insert name value).contains x = true ↔ x = name ∨ m.contains x = true := by
  rw [contains, get?_insert]
  split
  · rename_i h
    simp [h]
  · rename_i h
    simp [h, contains]

theorem contains_insert_of_ne {m : NameMap α} {name : String} {value : α} {x : String} (h : x ≠ name) :
    (m.insert name value).contains x = m.contains x := by
  rw [contains, get?_insert, if_neg h, contains]

theorem mem_names_iff {m : NameMap α} {x : String} : x ∈ m.names ↔ m.contains x = true := by
  have hlookup : ∀ es : List (String × α), x ∈ es.map (·.1) ↔ (es.lookup x).isSome = true := by
    intro es
    induction es with
    | nil => simp
    | cons e es ih =>
      rw [lookup_cons_eq, List.map_cons, List.mem_cons, ih]
      by_cases h : x = e.1 <;> simp [h]
  exact hlookup m.entries

/-- Each entry is the value of its name. -/
theorem get?_eq_some_iff {m : NameMap α} {x : String} {v : α} :
    m.get? x = some v ↔ (x, v) ∈ m.entries := by
  obtain ⟨es, hes⟩ := m
  show es.lookup x = some v ↔ (x, v) ∈ es
  induction es with
  | nil => simp
  | cons e es ih =>
    obtain ⟨hless, hes⟩ := List.pairwise_cons.mp hes
    rw [lookup_cons_eq, List.mem_cons]
    by_cases hx : x = e.1
    · subst hx
      have hnew : (e.1, v) ∉ es := by
        intro hmem
        have hlt : e.1 < e.1 := hless (e.1, v) hmem
        exact Std.lt_irrefl hlt
      rw [if_pos rfl, or_iff_left hnew]
      obtain ⟨name, w⟩ := e
      simp [eq_comm]
    · have hne : (x, v) ≠ e := fun heq => hx (congrArg Prod.fst heq)
      rw [if_neg hx, ih hes, or_iff_right hne]

/-- Each name is listed once. -/
theorem names_nodup (m : NameMap α) : m.names.Nodup := by
  unfold names
  rw [List.Nodup, List.pairwise_map]
  exact m.ascending.imp fun h => Std.ne_of_lt h

/-- An insertion adds an entry unless there is one of that name. -/
theorem size_insert (m : NameMap α) (name : String) (value : α) :
    (m.insert name value).size = m.size + if m.contains name then 0 else 1 := by
  obtain ⟨es, hes⟩ := m
  show (insertEntry name value es).length = es.length + if (es.lookup name).isSome then 0 else 1
  induction es with
  | nil => rfl
  | cons e es ih =>
    obtain ⟨hless, hes⟩ := List.pairwise_cons.mp hes
    rw [insertEntry]
    split
    · rename_i hlt
      rw [lookup_eq_none_of_head_lt hless hlt]
      rfl
    · split
      · rename_i heq
        rw [heq, lookup_self]
        rfl
      · rename_i hne
        rw [lookup_cons_eq, if_neg hne, List.length_cons, List.length_cons, ih hes]
        omega

theorem contains_foldl_insert {es : List (String × α)} {m : NameMap α} {x : String} :
    (es.foldl (fun m e => m.insert e.1 e.2) m).contains x = true ↔
      x ∈ es.map (·.1) ∨ m.contains x = true := by
  induction es generalizing m with
  | nil => simp
  | cons e es ih =>
    rw [List.foldl_cons, ih, contains_insert, List.map_cons, List.mem_cons]
    exact or_left_comm.trans or_assoc.symm

end Reckoner.NameMap

namespace Reckoner

theorem NameSet.contains_ofNames {names : List String} {x : String} :
    (NameSet.ofNames names).contains x = true ↔ x ∈ names := by
  unfold NameSet.ofNames NameMap.ofList
  rw [NameMap.contains_foldl_insert, List.map_map]
  simp [NameMap.contains, Function.comp_def]

end Reckoner
