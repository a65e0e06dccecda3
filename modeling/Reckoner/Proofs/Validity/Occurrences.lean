import Reckoner.Proofs.Validity.Acceptance

/-!
# What the searches find, and where

The searches try one place after the other and take what a pattern matches there. Here a piece of a text is
described by itself, together with what stands before and behind it, and without a word about searching.

* `Occurs kind s` — a piece of the kind stands somewhere in the text.
* `OccursFirst kind s piece` — this is the piece of the kind that begins furthest to the left.
* `OperandPair`, `Misplaced` — the two kinds of pieces that no formula has.
* `findOperandsSideBySide_eq_some_iff`, `findOperatorOutOfPlace_eq_some_iff` — each search finds exactly the
  first piece of its kind.
* `unmatched?_eq_closing_iff`, `unmatched?_eq_opening_iff` — which parenthesis is reported.
-/

set_option autoImplicit false

namespace Reckoner

/-! ## Pieces of a text -/

/-- A kind of piece: what stands before it, the piece, and what stands behind it. -/
abbrev PieceKind := List Char → List Char → List Char → Prop

/-- A piece of the kind stands somewhere in the text. -/
def Occurs (kind : PieceKind) (s : List Char) : Prop :=
  ∃ a piece b, s = a ++ piece ++ b ∧ kind a piece b

/-- The piece is of the kind, and none of the kind begins further to the left. -/
def OccursFirst (kind : PieceKind) (s piece : List Char) : Prop :=
  ∃ a b, s = a ++ piece ++ b ∧ kind a piece b ∧
    ∀ a' piece' b', s = a' ++ piece' ++ b' → kind a' piece' b' → a.length ≤ a'.length

theorem OccursFirst.occurs {kind : PieceKind} {s piece : List Char} (h : OccursFirst kind s piece) :
    Occurs kind s := by
  obtain ⟨a, b, hs, hkind, -⟩ := h
  exact ⟨a, piece, b, hs, hkind⟩

/-! ## Searching -/

/-- The place that a search stops at: the pattern matches there and nowhere further to the left. -/
theorem exists_place_of_leftmost {p : Pattern} {s piece : List Char} (h : leftmost p s = some piece) :
    ∃ a t, s = a ++ t ∧ p t = some piece ∧ ∀ a' t', s = a' ++ t' → a'.length < a.length → p t' = none := by
  induction s with
  | nil => exact ⟨[], [], rfl, h, fun _ _ _ hlt => absurd hlt (Nat.not_lt_zero _)⟩
  | cons c s ih =>
    unfold leftmost at h
    split at h
    · rename_i found hp
      cases h
      exact ⟨[], c :: s, rfl, hp, fun _ _ _ hlt => absurd hlt (Nat.not_lt_zero _)⟩
    · rename_i hp
      obtain ⟨a, t, rfl, hpt, hnone⟩ := ih h
      refine ⟨c :: a, t, rfl, hpt, fun a' t' heq hlt => ?_⟩
      cases a' with
      | nil =>
        rw [List.nil_append] at heq
        exact heq ▸ hp
      | cons d a' =>
        exact hnone a' t' (List.cons.inj heq).2 (Nat.lt_of_succ_lt_succ hlt)

section Search

variable {p : Pattern} {kind : PieceKind}
  (complete : ∀ a piece b, kind a piece b → p (piece ++ b) = some piece)
  (sound : ∀ a t piece, p t = some piece →
    (∀ a' t', a ++ t = a' ++ t' → a'.length < a.length → p t' = none) → ∃ b, t = piece ++ b ∧ kind a piece b)

include complete sound

/-- What a search finds is the first piece, if the pattern is right about pieces: it matches each of them, and
    what it matches is one where it matches nothing further to the left. -/
theorem occursFirst_of_leftmost {s piece : List Char} (h : leftmost p s = some piece) :
    OccursFirst kind s piece := by
  obtain ⟨a, t, rfl, hp, hnone⟩ := exists_place_of_leftmost h
  obtain ⟨b, rfl, hkind⟩ := sound a t piece hp hnone
  refine ⟨a, b, (List.append_assoc ..).symm, hkind, fun a' piece' b' heq hkind' => ?_⟩
  by_contra hlt
  have hmatch := complete a' piece' b' hkind'
  rw [hnone a' (piece' ++ b') (by rw [heq, List.append_assoc]) (by omega)] at hmatch
  cases hmatch

theorem leftmost_eq_none_iff_not_occurs {s : List Char} : leftmost p s = none ↔ ¬ Occurs kind s := by
  constructor
  · rintro h ⟨a, piece, b, rfl, hkind⟩
    have hnone := leftmost_eq_none_iff.mp h (piece ++ b) ⟨a, (List.append_assoc ..).symm⟩
    rw [complete a piece b hkind] at hnone
    cases hnone
  · intro h
    cases hfound : leftmost p s with
    | none => rfl
    | some piece => exact absurd (occursFirst_of_leftmost complete sound hfound).occurs h

/-- **A search finds exactly the first piece.** -/
theorem leftmost_eq_some_iff_occursFirst {s piece : List Char} :
    leftmost p s = some piece ↔ OccursFirst kind s piece := by
  refine ⟨occursFirst_of_leftmost complete sound, fun h => ?_⟩
  cases hfound : leftmost p s with
  | none => exact absurd h.occurs ((leftmost_eq_none_iff_not_occurs complete sound).mp hfound)
  | some found =>
    -- both begin at the same place, and there the pattern matches one piece only
    obtain ⟨a, b, hs, hkind, hleast⟩ := h
    obtain ⟨a', b', hs', hkind', hleast'⟩ := occursFirst_of_leftmost complete sound hfound
    have hlen : a.length = a'.length :=
      Nat.le_antisymm (hleast a' found b' hs' hkind') (hleast' a piece b hs hkind)
    have hsame : a ++ (piece ++ b) = a' ++ (found ++ b') := by
      rw [← List.append_assoc, ← List.append_assoc, ← hs, ← hs']
    have hrest : piece ++ b = found ++ b' := (List.append_inj hsame hlen).2
    have hmatch := complete a piece b hkind
    rw [hrest, complete a' found b' hkind'] at hmatch
    exact hmatch

end Search

/-! ## Operands side by side -/

/-- A whole operand, one or more blanks, and a whole operand. -/
def OperandPair : PieceKind := fun a piece b =>
  ∃ first gap second, piece = first ++ gap ++ second ∧
    (first ≠ [] ∧ ∀ c ∈ first, isOperandChar c = true) ∧ (gap ≠ [] ∧ ∀ c ∈ gap, isBlank c = true) ∧
    (second ≠ [] ∧ ∀ c ∈ second, isOperandChar c = true) ∧
    EndsWithout isOperandChar a ∧ BeginsWithout isOperandChar b

theorem operandsSideBySide_of_operandPair (a piece b : List Char) (h : OperandPair a piece b) :
    operandsSideBySide (piece ++ b) = some piece := by
  obtain ⟨first, gap, second, rfl, hf, hg, hs, -, hb⟩ := h
  exact operandsSideBySide_eq_some_iff.mpr ⟨first, gap, second, b, by simp, rfl, hf, hg, hs, hb⟩

/-- A match that no longer one begins further left begins with a whole operand. -/
theorem operandPair_of_operandsSideBySide (a t piece : List Char) (h : operandsSideBySide t = some piece)
    (hnone : ∀ a' t', a ++ t = a' ++ t' → a'.length < a.length → operandsSideBySide t' = none) :
    ∃ b, t = piece ++ b ∧ OperandPair a piece b := by
  obtain ⟨first, gap, second, b, rfl, rfl, hf, hg, hs, hb⟩ := operandsSideBySide_eq_some_iff.mp h
  refine ⟨b, by simp, first, gap, second, rfl, hf, hg, hs, ?_, hb⟩
  rcases List.eq_nil_or_concat a with rfl | ⟨front, x, rfl⟩
  · exact endsWithout_nil
  · rw [List.concat_eq_append] at hnone ⊢
    refine endsWithout_concat.mpr ?_
    cases hx : isOperandChar x with
    | false => rfl
    | true =>
      have hlonger : operandsSideBySide (x :: (first ++ (gap ++ (second ++ b)))) =
          some (x :: first ++ gap ++ second) :=
        operandsSideBySide_eq_some_iff.mpr ⟨x :: first, gap, second, b, rfl, rfl,
          ⟨by simp, List.forall_mem_cons.mpr ⟨hx, hf.2⟩⟩, hg, hs, hb⟩
      rw [hnone front _ (by simp) (by simp)] at hlonger
      cases hlonger

theorem findOperandsSideBySide_eq_some_iff {s piece : List Char} :
    findOperandsSideBySide s = some piece ↔ OccursFirst OperandPair s piece := by
  rw [findOperandsSideBySide_eq_leftmost]
  exact leftmost_eq_some_iff_occursFirst operandsSideBySide_of_operandPair operandPair_of_operandsSideBySide

theorem findOperandsSideBySide_eq_none_iff_not_occurs {s : List Char} :
    findOperandsSideBySide s = none ↔ ¬ Occurs OperandPair s := by
  rw [findOperandsSideBySide_eq_leftmost]
  exact leftmost_eq_none_iff_not_occurs operandsSideBySide_of_operandPair operandPair_of_operandsSideBySide

/-! ## Operators out of place -/

/-- An operator and, behind any blanks, one that does not begin an operand or a closing parenthesis; or an
    opening parenthesis and such an operator. -/
def Misplaced : PieceKind := fun _ piece _ =>
  ∃ c gap d, piece = c :: gap ++ [d] ∧ (∀ x ∈ gap, isBlank x = true) ∧
    ((c ∈ ['+', '-', '*', '/'] ∧ d ∈ ['+', '*', '/', ')']) ∨ (c = '(' ∧ d ∈ ['+', '*', '/']))

theorem isOperator_iff_mem {c : Char} : isOperator c = true ↔ c ∈ ['+', '-', '*', '/'] := by
  simp only [isOperator, isInfixOnly, Bool.or_eq_true, beq_iff_eq, List.mem_cons, List.not_mem_nil, or_false]
  tauto

theorem isInfixOnly_iff_mem {c : Char} : isInfixOnly c = true ↔ c ∈ ['+', '*', '/'] := by
  simp [isInfixOnly, or_assoc]

theorem awaitsOperand_and_clashes_iff {c d : Char} : awaitsOperand c = true ∧ clashes c d = true ↔
    (c ∈ ['+', '-', '*', '/'] ∧ d ∈ ['+', '*', '/', ')']) ∨ (c = '(' ∧ d ∈ ['+', '*', '/']) := by
  have hclose : d ∈ ['+', '*', '/', ')'] ↔ isInfixOnly d = true ∨ d = ')' := by
    rw [isInfixOnly_iff_mem]
    simp [or_assoc]
  rw [← isOperator_iff_mem, ← isInfixOnly_iff_mem, hclose]
  simp only [awaitsOperand, clashes, Bool.or_eq_true, Bool.and_eq_true, beq_iff_eq]
  constructor
  · rintro ⟨hc | rfl, hd | ⟨hd, hc'⟩⟩
    · exact Or.inl ⟨hc, Or.inl hd⟩
    · exact Or.inl ⟨hc, Or.inr hd⟩
    · exact Or.inr ⟨rfl, hd⟩
    · exact absurd hc' (by decide)
  · rintro (⟨hc, hd | hd⟩ | ⟨rfl, hd⟩)
    · exact ⟨Or.inl hc, Or.inl hd⟩
    · exact ⟨Or.inl hc, Or.inr ⟨hd, hc⟩⟩
    · exact ⟨Or.inr rfl, Or.inl hd⟩

theorem operatorOutOfPlace_of_misplaced (a piece b : List Char) (h : Misplaced a piece b) :
    operatorOutOfPlace (piece ++ b) = some piece := by
  obtain ⟨c, gap, d, rfl, hgap, hmarks⟩ := h
  obtain ⟨hc, hd⟩ := awaitsOperand_and_clashes_iff.mpr hmarks
  have hstop : BeginsWithout isBlank (d :: b) := beginsWithout_cons.mpr (isBlank_of_clashes hd)
  have htext : c :: gap ++ [d] ++ b = c :: (gap ++ d :: b) := by simp
  rw [htext, operatorOutOfPlace_cons, if_pos hc, dropWhile_append_run hgap hstop,
    takeWhile_append_run hgap hstop, List.head?_cons, Option.bind_some, if_pos hd]

theorem misplaced_of_operatorOutOfPlace (a t piece : List Char) (h : operatorOutOfPlace t = some piece)
    (_ : ∀ a' t', a ++ t = a' ++ t' → a'.length < a.length → operatorOutOfPlace t' = none) :
    ∃ b, t = piece ++ b ∧ Misplaced a piece b := by
  cases t with
  | nil => cases h
  | cons c s =>
    have hs := List.takeWhile_append_dropWhile (p := isBlank) (l := s)
    rw [operatorOutOfPlace_cons] at h
    split at h
    · rename_i hc
      cases hr : s.dropWhile isBlank with
      | nil => simp [hr] at h
      | cons d b =>
        rw [hr, List.head?_cons, Option.bind_some] at h
        split at h
        · rename_i hd
          cases h
          rw [hr] at hs
          exact ⟨b, by simp [hs], c, s.takeWhile isBlank, d, rfl, fun x hx => List.mem_takeWhile_imp hx,
            awaitsOperand_and_clashes_iff.mp ⟨hc, hd⟩⟩
        · cases h
    · cases h

theorem findOperatorOutOfPlace_eq_some_iff {s piece : List Char} :
    findOperatorOutOfPlace s = some piece ↔ OccursFirst Misplaced s piece :=
  leftmost_eq_some_iff_occursFirst operatorOutOfPlace_of_misplaced misplaced_of_operatorOutOfPlace

theorem findOperatorOutOfPlace_eq_none_iff_not_occurs {s : List Char} :
    findOperatorOutOfPlace s = none ↔ ¬ Occurs Misplaced s :=
  leftmost_eq_none_iff_not_occurs operatorOutOfPlace_of_misplaced misplaced_of_operatorOutOfPlace

/-! ## Parentheses without partner -/

theorem unmatchedFrom?_eq_closing_iff {s : List Char} (opened : Nat) :
    unmatchedFrom? opened s = some .closing ↔ ∃ a, a <+: s ∧ opened + a.count '(' < a.count ')' := by
  induction s generalizing opened with
  | nil =>
    unfold unmatchedFrom?
    constructor
    · split <;> simp
    · rintro ⟨a, ha, hlt⟩
      rw [List.prefix_nil.mp ha] at hlt
      simp at hlt
  | cons c s ih =>
    have hcons : (∃ a, a <+: c :: s ∧ opened + a.count '(' < a.count ')') ↔
        ∃ a, a <+: s ∧ opened + (c :: a).count '(' < (c :: a).count ')' := by
      constructor
      · rintro ⟨a, ha, hlt⟩
        rcases List.prefix_cons_iff.mp ha with rfl | ⟨b, rfl, hb⟩
        · simp at hlt
        · exact ⟨b, hb, hlt⟩
      · rintro ⟨a, ha, hlt⟩
        exact ⟨c :: a, (List.prefix_cons_inj c).mpr ha, hlt⟩
    rw [hcons]
    by_cases hopen : c = '('
    · subst hopen
      rw [unmatchedFrom?_open, ih]
      simp [Nat.add_comm, Nat.add_left_comm]
    by_cases hclose : c = ')'
    · subst hclose
      have hcloses : ∀ a : List Char, (')' :: a).count ')' = a.count ')' + 1 := fun a => by simp
      have hopens : ∀ a : List Char, (')' :: a).count '(' = a.count '(' := fun a => by simp
      simp only [hcloses, hopens]
      cases opened with
      | zero =>
        rw [unmatchedFrom?_close_zero]
        exact ⟨fun _ => ⟨[], List.nil_prefix, by simp⟩, fun _ => rfl⟩
      | succ opened =>
        rw [unmatchedFrom?_close_succ, ih]
        constructor
        · rintro ⟨a, ha, hlt⟩
          exact ⟨a, ha, by omega⟩
        · rintro ⟨a, ha, hlt⟩
          exact ⟨a, ha, by omega⟩
    · rw [unmatchedFrom?_other hopen hclose, ih]
      simp [hopen, hclose]

/-- **A closing parenthesis** is reported if some beginning of the text closes more than it opens. -/
theorem unmatched?_eq_closing_iff {s : List Char} :
    unmatched? s = some .closing ↔ ∃ a, a <+: s ∧ a.count '(' < a.count ')' := by
  unfold unmatched?
  rw [unmatchedFrom?_eq_closing_iff]
  simp only [Nat.zero_add]

/-- **An opening parenthesis** is reported if none does and the text opens more than it closes. -/
theorem unmatched?_eq_opening_iff {s : List Char} :
    unmatched? s = some .opening ↔ (¬ ∃ a, a <+: s ∧ a.count '(' < a.count ')') ∧
      s.count ')' < s.count '(' := by
  rw [← unmatched?_eq_closing_iff]
  constructor
  · intro h
    refine ⟨by simp [h], ?_⟩
    have hle : ∀ a, a <+: s → a.count ')' ≤ a.count '(' := by
      intro a ha
      by_contra hlt
      have hclosing := unmatched?_eq_closing_iff.mpr ⟨a, ha, by omega⟩
      rw [h] at hclosing
      cases hclosing
    by_contra hlt
    have hnone := unmatched?_eq_none_iff.mpr ⟨hle, Nat.le_antisymm (hle s (List.prefix_refl s)) (by omega)⟩
    rw [h] at hnone
    cases hnone
  · rintro ⟨hclosing, hlt⟩
    cases h : unmatched? s with
    | none =>
      have heq := (unmatched?_eq_none_iff.mp h).closes_eq
      omega
    | some side =>
      cases side with
      | opening => rfl
      | closing => exact absurd h hclosing

end Reckoner
