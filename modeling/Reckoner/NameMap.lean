/-!
# Maps from names

A finite map whose keys are names, kept in ascending order of the names. The order is that of code
points, which is also the order of the UTF-8 bytes. One map has one representation, so two maps with
the same entries are equal (`NameMap.ext_get`), whatever was inserted first.

* `Table` — values of variables. `a == b` compares two tables: the same names, and values that are
  equal as doubles, so that `0.0` equals `-0.0` and a table with a NaN differs from itself.
* `NameSet` — a set of names, the map that keeps nothing with them.
-/

set_option autoImplicit false

namespace Reckoner

/-- A finite map from names, its entries in ascending order. -/
structure NameMap (α : Type) where
  entries : List (String × α)
  ascending : entries.Pairwise fun a b => a.1 < b.1

namespace NameMap

variable {α : Type}

/-- The entries after one is put in its place; an entry of the same name gives way to it. -/
def insertEntry (name : String) (value : α) : List (String × α) → List (String × α)
  | [] => [(name, value)]
  | e :: es =>
    if name < e.1 then (name, value) :: e :: es
    else if name = e.1 then (name, value) :: es
    else e :: insertEntry name value es

theorem mem_insertEntry {name : String} {value : α} {e : String × α} :
    ∀ {es : List (String × α)}, e ∈ insertEntry name value es → e = (name, value) ∨ e ∈ es
  | [], h => Or.inl (List.mem_singleton.mp h)
  | d :: es, h => by
    unfold insertEntry at h
    split at h
    · exact List.mem_cons.mp h
    · split at h
      · rcases List.mem_cons.mp h with h | h
        · exact Or.inl h
        · exact Or.inr (List.mem_cons_of_mem d h)
      · rcases List.mem_cons.mp h with h | h
        · exact Or.inr (h ▸ List.mem_cons_self)
        · rcases mem_insertEntry h with h | h
          · exact Or.inl h
          · exact Or.inr (List.mem_cons_of_mem d h)

theorem ascending_insertEntry (name : String) (value : α) {es : List (String × α)}
    (h : es.Pairwise fun a b => a.1 < b.1) :
    (insertEntry name value es).Pairwise fun a b => a.1 < b.1 := by
  induction es with
  | nil => exact List.pairwise_singleton _ _
  | cons d es ih =>
    obtain ⟨hd, hes⟩ := List.pairwise_cons.mp h
    unfold insertEntry
    split
    · rename_i hlt
      refine List.pairwise_cons.mpr ⟨fun e he => ?_, h⟩
      rcases List.mem_cons.mp he with he | he
      · exact he ▸ hlt
      · exact Std.lt_trans hlt (hd e he)
    · split
      · rename_i heq
        exact List.pairwise_cons.mpr ⟨fun e he => heq ▸ hd e he, hes⟩
      · rename_i hlt hne
        refine List.pairwise_cons.mpr ⟨fun e he => ?_, ih hes⟩
        rcases mem_insertEntry he with he | he
        · rw [he]
          exact Std.lt_of_le_of_ne (Std.not_lt.mp hlt) (Ne.symm hne)
        · exact hd e he

/-- The map without entries. -/
def empty : NameMap α := ⟨[], List.Pairwise.nil⟩

/-- The map with one entry put in, in place of an entry of that name. -/
def insert (m : NameMap α) (name : String) (value : α) : NameMap α :=
  ⟨insertEntry name value m.entries, ascending_insertEntry name value m.ascending⟩

/-- The map of some entries; of several with one name the last one counts. -/
def ofList (es : List (String × α)) : NameMap α :=
  es.foldl (fun m e => m.insert e.1 e.2) empty

/-- The value of a name. -/
def get? (m : NameMap α) (name : String) : Option α :=
  m.entries.lookup name

/-- The name has a value. -/
def contains (m : NameMap α) (name : String) : Bool :=
  (m.get? name).isSome

/-- The number of entries. -/
def size (m : NameMap α) : Nat :=
  m.entries.length

/-- The names, ascending. -/
def names (m : NameMap α) : List String :=
  m.entries.map (·.1)

/-- Two maps are alike if they have the same names and like values. -/
instance [BEq α] : BEq (NameMap α) := ⟨fun a b => a.entries == b.entries⟩

@[simp] theorem get?_empty (name : String) : (empty : NameMap α).get? name = none := rfl

theorem lookup_cons_eq (x : String) (e : String × α) (es : List (String × α)) :
    (e :: es).lookup x = if x = e.1 then some e.2 else es.lookup x := by
  show (match x == e.1 with | true => some e.2 | false => es.lookup x) = _
  by_cases h : x = e.1
  · rw [beq_iff_eq.mpr h, if_pos h]
  · rw [beq_eq_false_iff_ne.mpr h, if_neg h]

theorem lookup_insertEntry (name : String) (value : α) (x : String) (es : List (String × α)) :
    (insertEntry name value es).lookup x = if x = name then some value else es.lookup x := by
  induction es with
  | nil => rw [insertEntry, lookup_cons_eq]
  | cons d es ih =>
    unfold insertEntry
    split
    · rw [lookup_cons_eq]
    · split
      · rename_i heq
        rw [lookup_cons_eq, lookup_cons_eq, ← heq]
        by_cases h : x = name
        · rw [if_pos h, if_pos h]
        · rw [if_neg h, if_neg h, if_neg h]
      · rename_i hne
        rw [lookup_cons_eq, lookup_cons_eq, ih]
        by_cases h : x = name
        · have hd : x ≠ d.1 := fun hx => hne (h ▸ hx)
          rw [if_neg hd, if_pos h, if_pos h]
        · rw [if_neg h, if_neg h]

/-- After an insertion the name has the new value, and every other name what it had. -/
theorem get?_insert (m : NameMap α) (name : String) (value : α) (x : String) :
    (m.insert name value).get? x = if x = name then some value else m.get? x :=
  lookup_insertEntry name value x m.entries

theorem lookup_eq_none_of_lt {x : String} {es : List (String × α)} (h : ∀ e ∈ es, x < e.1) :
    es.lookup x = none := by
  induction es with
  | nil => rfl
  | cons d es ih =>
    rw [lookup_cons_eq, if_neg (Std.ne_of_lt (h d List.mem_cons_self))]
    exact ih fun e he => h e (List.mem_cons_of_mem d he)

theorem lookup_self (e : String × α) (es : List (String × α)) :
    (e :: es).lookup e.1 = some e.2 := by
  rw [lookup_cons_eq, if_pos rfl]

/-- The first name of an ascending list is no name of a list that begins with a greater one. -/
theorem lookup_eq_none_of_head_lt {x : String} {e : String × α} {es : List (String × α)}
    (h : ∀ d ∈ es, e.1 < d.1) (hx : x < e.1) : (e :: es).lookup x = none := by
  apply lookup_eq_none_of_lt
  intro d hd
  rcases List.mem_cons.mp hd with hd | hd
  · exact hd ▸ hx
  · exact Std.lt_trans hx (h d hd)

/-- Ascending lists with the same names begin with the same name: the lesser of two would be in one list only. -/
theorem first_name_eq {e f : String × α} {es fs : List (String × α)} (he : ∀ d ∈ es, e.1 < d.1)
    (hf : ∀ d ∈ fs, f.1 < d.1) (h : ∀ x, ((e :: es).lookup x).isSome = ((f :: fs).lookup x).isSome) :
    e.1 = f.1 := by
  rcases Std.lt_trichotomy e.1 f.1 with hlt | heq | hgt
  · have hs := h e.1
    rw [lookup_self, lookup_eq_none_of_head_lt hf hlt] at hs
    cases hs
  · exact heq
  · have hs := h f.1
    rw [lookup_self, lookup_eq_none_of_head_lt he hgt] at hs
    cases hs

theorem entries_eq_of_lookup_eq {es fs : List (String × α)}
    (hes : es.Pairwise fun a b => a.1 < b.1) (hfs : fs.Pairwise fun a b => a.1 < b.1)
    (h : ∀ x, es.lookup x = fs.lookup x) : es = fs := by
  induction es generalizing fs with
  | nil =>
    cases fs with
    | nil => rfl
    | cons f fs => exact absurd ((h f.1).trans (lookup_self f fs)) (by simp)
  | cons e es ih =>
    cases fs with
    | nil => exact absurd ((h e.1).symm.trans (lookup_self e es)) (by simp)
    | cons f fs =>
      obtain ⟨he, hes'⟩ := List.pairwise_cons.mp hes
      obtain ⟨hf, hfs'⟩ := List.pairwise_cons.mp hfs
      have hname : e.1 = f.1 := first_name_eq he hf fun x => congrArg Option.isSome (h x)
      have hvalue : e.2 = f.2 := by
        have hs := h e.1
        rw [lookup_self, hname, lookup_self] at hs
        exact Option.some.inj hs
      have hef : e = f := Prod.ext hname hvalue
      subst hef
      congr 1
      apply ih hes' hfs'
      intro x
      by_cases hx : x = e.1
      · rw [hx, lookup_eq_none_of_lt he, lookup_eq_none_of_lt hf]
      · have hs := h x
        rwa [lookup_cons_eq, lookup_cons_eq, if_neg hx, if_neg hx] at hs

/-- Two maps with the same value for each name are equal. -/
theorem ext_get {a b : NameMap α} (h : ∀ x, a.get? x = b.get? x) : a = b := by
  cases a with
  | mk es hes =>
    cases b with
    | mk fs hfs =>
      have heq : es = fs := entries_eq_of_lookup_eq hes hfs h
      subst heq
      rfl

end NameMap

/-- The values of variables. -/
abbrev Table := NameMap Float

/-- A set of names. -/
abbrev NameSet := NameMap Unit

/-- The set of the names in a list. -/
def NameSet.ofNames (names : List String) : NameSet :=
  NameMap.ofList (names.map fun name => (name, ()))

end Reckoner
