import Reckoner.Proofs.NameMap

/-!
# Comparison of tables

Two maps are compared name by name, although the comparison goes over their entries; and as doubles are not
always equal to themselves, neither are tables.

* `float_beq_iff` — when two doubles are equal: `0.0` and `-0.0` are, and a NaN is equal to nothing.
* `NameMap.beq_iff` — two maps are equal if this is so of what each name has in them.
* `Table.beq_comm`, `Table.beq_self_iff` — order does not matter, and a table equals itself unless it holds a NaN.
-/

set_option autoImplicit false

namespace Reckoner

open Float.Model (UnpackedFloat)

/-! ## Doubles -/

theorem compare_then_compare_eq_iff {e f : Int} {m n : Nat} :
    (compare e f).then (compare m n) = .eq ↔ e = f ∧ m = n := by
  rw [Ordering.then_eq_eq, Std.compare_eq_iff_eq, Std.compare_eq_iff_eq]

theorem unpacked_beq_self {a : UnpackedFloat} (h : a ≠ .notANumber) : a.beq a = true := by
  cases a with
  | notANumber => exact absurd rfl h
  | infinity s => cases s <;> rfl
  | zero s => rfl
  | finite s m e hm =>
    have heq : (compare e e).then (compare m m) = .eq := compare_then_compare_eq_iff.mpr ⟨rfl, rfl⟩
    cases s with
    | positive =>
      show (some ((compare e e).then (compare m m)) == some .eq) = true
      rw [heq]
      rfl
    | negative =>
      show (some ((compare e e).then (compare m m)).swap == some .eq) = true
      rw [heq]
      rfl

theorem eq_or_zeros_of_unpacked_beq {a b : UnpackedFloat} (h : a.beq b = true) :
    a ≠ .notANumber ∧ (a = b ∨ (∃ s, a = .zero s) ∧ ∃ s, b = .zero s) := by
  have hne : ∀ {o : Ordering}, (some o == some .eq) = true → o = .eq := by decide
  rcases a with s | _ | s | ⟨s, m, e, hm⟩ <;> rcases b with t | _ | t | ⟨t, n, f, hn⟩
  case zero.zero => exact ⟨nofun, Or.inr ⟨⟨s, rfl⟩, t, rfl⟩⟩
  case infinity.infinity =>
    cases s <;> cases t <;> first
      | exact ⟨nofun, Or.inl rfl⟩
      | exact absurd (show false = true from h) Bool.false_ne_true
  case finite.finite =>
    cases s <;> cases t
    case positive.positive =>
      obtain ⟨rfl, rfl⟩ := compare_then_compare_eq_iff.mp (hne h)
      exact ⟨nofun, Or.inl rfl⟩
    case negative.negative =>
      obtain ⟨rfl, rfl⟩ := compare_then_compare_eq_iff.mp (Ordering.swap_eq_eq.mp (hne h))
      exact ⟨nofun, Or.inl rfl⟩
    all_goals exact absurd (show false = true from h) Bool.false_ne_true
  -- the other kinds of doubles differ, whatever their signs
  all_goals try cases s
  all_goals try cases t
  all_goals exact absurd (show false = true from h) Bool.false_ne_true

theorem unpacked_beq_iff {a b : UnpackedFloat} :
    a.beq b = true ↔ a ≠ .notANumber ∧ (a = b ∨ (∃ s, a = .zero s) ∧ ∃ s, b = .zero s) := by
  refine ⟨eq_or_zeros_of_unpacked_beq, ?_⟩
  rintro ⟨hne, rfl | ⟨⟨s, rfl⟩, t, rfl⟩⟩
  · exact unpacked_beq_self hne
  · rfl

/-- The number zero, of either sign. -/
def IsZero (v : Float) : Prop := ∃ s, v.toModel.unpack = .zero s

/-- Two doubles are equal if they are one number, where both zeros are one and a NaN is none. -/
theorem float_beq_iff {v w : Float} :
    (v == w) = true ↔ v.isNaN = false ∧ (v.toModel.unpack = w.toModel.unpack ∨ IsZero v ∧ IsZero w) := by
  have hnan : v.isNaN = false ↔ v.toModel.unpack ≠ .notANumber := by
    show v.toModel.unpack.isNaN = false ↔ _
    cases v.toModel.unpack with
    | notANumber => exact iff_of_false (fun h => Bool.false_ne_true h.symm) fun h => h rfl
    | infinity _ | zero _ | finite _ _ _ _ => exact iff_of_true rfl nofun
  show v.toModel.unpack.beq w.toModel.unpack = true ↔ _
  rw [unpacked_beq_iff, hnan]
  rfl

theorem float_beq_self_iff {v : Float} : (v == v) = true ↔ v.isNaN = false := by
  rw [float_beq_iff]
  exact and_iff_left (Or.inl rfl)

theorem float_beq_comm (v w : Float) : (v == w) = (w == v) := by
  have himp : ∀ {v w : Float}, (v == w) = true → (w == v) = true := by
    intro v w h
    show w.toModel.unpack.beq v.toModel.unpack = true
    obtain ⟨hv, heq | ⟨⟨s, hs⟩, t, ht⟩⟩ := unpacked_beq_iff.mp h
    · exact unpacked_beq_iff.mpr ⟨heq ▸ hv, Or.inl heq.symm⟩
    · exact unpacked_beq_iff.mpr ⟨ht ▸ nofun, Or.inr ⟨⟨t, ht⟩, s, hs⟩⟩
  exact Bool.eq_iff_iff.mpr ⟨himp, himp⟩

/-! ## Maps -/

namespace NameMap

variable {α : Type} [BEq α]

theorem entries_beq_iff {es fs : List (String × α)}
    (hes : es.Pairwise fun a b => a.1 < b.1) (hfs : fs.Pairwise fun a b => a.1 < b.1) :
    (es == fs) = true ↔ ∀ x, (es.lookup x == fs.lookup x) = true := by
  induction es generalizing fs with
  | nil =>
    cases fs with
    | nil => simp
    | cons f fs =>
      refine iff_of_false (by simp) fun h => ?_
      have hf := h f.1
      rw [lookup_self] at hf
      simp at hf
  | cons e es ih =>
    cases fs with
    | nil =>
      refine iff_of_false (by simp) fun h => ?_
      have he := h e.1
      rw [lookup_self] at he
      simp at he
    | cons f fs =>
      obtain ⟨he, hes'⟩ := List.pairwise_cons.mp hes
      obtain ⟨hf, hfs'⟩ := List.pairwise_cons.mp hfs
      have hcons : (e :: es == f :: fs) = true ↔ (e.1 = f.1 ∧ (e.2 == f.2) = true) ∧ (es == fs) = true := by
        show (((e.1 == f.1) && (e.2 == f.2)) && (es == fs)) = true ↔ _
        simp
      rw [hcons, ih hes' hfs']
      constructor
      · rintro ⟨⟨hname, hvalue⟩, hrest⟩ x
        rw [lookup_cons_eq, lookup_cons_eq, ← hname]
        by_cases hx : x = e.1
        · rw [if_pos hx, if_pos hx]
          exact hvalue
        · rw [if_neg hx, if_neg hx]
          exact hrest x
      · intro h
        have hsome : ∀ {o o' : Option α}, (o == o') = true → o.isSome = o'.isSome := by
          rintro (_ | _) (_ | _) heq <;> first | rfl | cases heq
        have hname : e.1 = f.1 := first_name_eq he hf fun x => hsome (h x)
        have hvalue : (e.2 == f.2) = true := by
          have hs := h e.1
          rw [lookup_self, hname, lookup_self] at hs
          exact hs
        refine ⟨⟨hname, hvalue⟩, fun x => ?_⟩
        by_cases hx : x = e.1
        · rw [hx, lookup_eq_none_of_lt he, hname, lookup_eq_none_of_lt hf]
          rfl
        · have hs := h x
          rwa [lookup_cons_eq, lookup_cons_eq, if_neg hx, if_neg (hname ▸ hx)] at hs

/-- **Two maps are compared name by name.** -/
theorem beq_iff {a b : NameMap α} : (a == b) = true ↔ ∀ x, (a.get? x == b.get? x) = true :=
  entries_beq_iff a.ascending b.ascending

/-- They are equal if they have the same names and, for each, equal values. -/
theorem beq_iff_names_values {a b : NameMap α} :
    (a == b) = true ↔ (∀ x, a.contains x = true ↔ b.contains x = true) ∧
      ∀ x v w, a.get? x = some v → b.get? x = some w → (v == w) = true := by
  rw [beq_iff, ← forall_and]
  refine forall_congr' fun x => ?_
  unfold contains
  cases a.get? x <;> cases b.get? x <;> simp

end NameMap

/-! ## Tables -/

namespace Table

theorem beq_comm (a b : Table) : (a == b) = (b == a) := by
  have hvalues : ∀ x, (a.get? x == b.get? x) = (b.get? x == a.get? x) := by
    intro x
    cases a.get? x <;> cases b.get? x <;> first | rfl | exact float_beq_comm _ _
  rw [Bool.eq_iff_iff, NameMap.beq_iff, NameMap.beq_iff]
  exact forall_congr' fun x => by rw [hvalues x]

/-- A table equals itself exactly if none of its values is a NaN. -/
theorem beq_self_iff (a : Table) : (a == a) = true ↔ ∀ x v, a.get? x = some v → v.isNaN = false := by
  rw [NameMap.beq_iff]
  refine forall_congr' fun x => ?_
  cases hx : a.get? x with
  | none => simp
  | some v =>
    show (v == v) = true ↔ _
    rw [float_beq_self_iff]
    simp

end Table

end Reckoner
