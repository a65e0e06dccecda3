import Reckoner.Formula.Token
import Reckoner.Proofs.Text.Neighbours
import Reckoner.Validity.Pattern

/-!
# What the two searches find

* `leftmost_eq_none_iff` — a search fails exactly if the pattern matches in front of no ending of the
  text.
* `leftmostByRuns_eq_leftmost` — going on behind a whole run of characters loses nothing for a pattern
  that does not match inside a run without matching in front of it.
* `findOperandsSideBySide_eq_none_iff`, `findOperatorOutOfPlace_eq_none_iff` — each search fails exactly
  if no two neighbours are of the kind it looks for.
-/

set_option autoImplicit false

namespace Reckoner

theorem leftmost_eq_none_iff {p : Pattern} {s : List Char} :
    leftmost p s = none ↔ ∀ t, t <:+ s → p t = none := by
  induction s with
  | nil => simp [leftmost]
  | cons c s ih =>
    unfold leftmost
    constructor
    · intro h t ht
      split at h
      · cases h
      · rename_i hp
        rcases List.suffix_cons_iff.mp ht with rfl | ht
        · exact hp
        · exact ih.mp h t ht
    · intro h
      rw [h (c :: s) (List.suffix_refl _)]
      exact ih.mpr fun t ht => h t (ht.trans (List.suffix_cons c s))

/-- Where the pattern does not match in front of a run, the search may go on behind the run. -/
theorem leftmost_dropWhile {p : Pattern} {q : Char → Bool}
    (hpq : ∀ c d s, q c = true → q d = true → p (c :: d :: s) = none → p (d :: s) = none)
    {c : Char} {s : List Char} (hc : q c = true) (hp : p (c :: s) = none) :
    leftmost p (s.dropWhile q) = leftmost p s := by
  induction s generalizing c with
  | nil => rfl
  | cons d s ih =>
    cases hd : q d with
    | false => simp [hd]
    | true =>
      have hnext := hpq c d s hc hd hp
      rw [List.dropWhile_cons_of_pos hd, ih hd hnext, leftmost, hnext]

/-- **Passing over whole runs finds the leftmost match.** -/
theorem leftmostByRuns_eq_leftmost {p : Pattern} {q : Char → Bool}
    (hpq : ∀ c d s, q c = true → q d = true → p (c :: d :: s) = none → p (d :: s) = none)
    (s : List Char) : leftmostByRuns p q s = leftmost p s := by
  fun_induction leftmostByRuns p q s with
  | case1 s piece hp => cases s <;> simp [leftmost, hp]
  | case2 hp => simp [leftmost, hp]
  | case3 c s hp ih =>
    simp only [dite_eq_ite] at ih
    rw [ih, leftmost, hp]
    split
    · rename_i hc
      exact leftmost_dropWhile hpq hc hp
    · rfl

/-! ## Operands side by side -/

theorem operandsSideBySide_eq_some_iff {s piece : List Char} :
    operandsSideBySide s = some piece ↔ ∃ first gap second rest,
      s = first ++ (gap ++ (second ++ rest)) ∧ piece = first ++ gap ++ second ∧
      (first ≠ [] ∧ ∀ c ∈ first, isOperandChar c = true) ∧ (gap ≠ [] ∧ ∀ c ∈ gap, isBlank c = true) ∧
      (second ≠ [] ∧ ∀ c ∈ second, isOperandChar c = true) ∧ BeginsWithout isOperandChar rest := by
  constructor
  · intro h
    unfold operandsSideBySide at h
    split at h
    · cases h
    · rename_i first hfirst
      simp only at h
      split at h
      · cases h
      · rename_i gap hgap
        split at h
        · cases h
        · rename_i second hsecond
          cases h
          refine ⟨_, _, _, (((s.dropWhile isOperandChar).dropWhile isBlank).dropWhile isOperandChar),
            ?_, rfl, ⟨fun hn => hfirst (by simpa using hn), fun c hc => List.mem_takeWhile_imp hc⟩,
            ⟨fun hn => hgap (by simpa using hn), fun c hc => List.mem_takeWhile_imp hc⟩,
            ⟨fun hn => hsecond (by simpa using hn), fun c hc => List.mem_takeWhile_imp hc⟩,
            beginsWithout_dropWhile _ _⟩
          rw [List.takeWhile_append_dropWhile, List.takeWhile_append_dropWhile,
            List.takeWhile_append_dropWhile]
  · rintro ⟨first, gap, second, rest, rfl, rfl, ⟨hfne, hf⟩, ⟨hgne, hg⟩, ⟨hsne, hs⟩, hrest⟩
    have hgb : BeginsWithout isOperandChar (gap ++ (second ++ rest)) := by
      cases gap with
      | nil => exact absurd rfl hgne
      | cons c gap => exact beginsWithout_cons.mpr (isOperandChar_of_isBlank (hg c (by simp)))
    have hsb : BeginsWithout isBlank (second ++ rest) := by
      cases second with
      | nil => exact absurd rfl hsne
      | cons c second => exact beginsWithout_cons.mpr (isBlank_of_isOperandChar (hs c (by simp)))
    unfold operandsSideBySide
    simp only [takeWhile_append_run hf hgb, dropWhile_append_run hf hgb, takeWhile_append_run hg hsb,
      dropWhile_append_run hg hsb, takeWhile_append_run hs hrest]

/-- Inside an operand no match begins that does not begin further to the left. -/
theorem operandsSideBySide_eq_none_of_cons (c d : Char) (s : List Char) (hc : isOperandChar c = true)
    (_ : isOperandChar d = true) (h : operandsSideBySide (c :: d :: s) = none) :
    operandsSideBySide (d :: s) = none := by
  -- a match in front of the shorter run would be one in front of the longer run
  cases hm : operandsSideBySide (d :: s) with
  | none => rfl
  | some piece =>
    obtain ⟨first, gap, second, rest, heq, rfl, ⟨_, hf⟩, hrest⟩ := operandsSideBySide_eq_some_iff.mp hm
    have hlonger : operandsSideBySide (c :: d :: s) = some (c :: first ++ gap ++ second) :=
      operandsSideBySide_eq_some_iff.mpr ⟨c :: first, gap, second, rest, by rw [heq]; rfl, rfl,
        ⟨by simp, by simpa [hc] using hf⟩, hrest⟩
    rw [h] at hlonger
    cases hlonger

theorem findOperandsSideBySide_eq_leftmost (s : List Char) :
    findOperandsSideBySide s = leftmost operandsSideBySide s :=
  leftmostByRuns_eq_leftmost operandsSideBySide_eq_none_of_cons s

/-- **No operands side by side** are found exactly if no blank separates two operand characters. -/
theorem findOperandsSideBySide_eq_none_iff {s : List Char} :
    findOperandsSideBySide s = none ↔ ∀ n ∈ neighbours s, n.sideBySide = false := by
  rw [findOperandsSideBySide_eq_leftmost, leftmost_eq_none_iff]
  constructor
  · intro h n hn
    obtain ⟨a, gap, b, rfl, hgap, hl, hr, hapart⟩ := mem_neighbours_iff.mp hn
    cases hside : n.sideBySide with
    | false => rfl
    | true =>
      simp only [Neighbours.sideBySide, Bool.and_eq_true] at hside
      obtain ⟨⟨hap, hleft⟩, hright⟩ := hside
      have hgne : gap ≠ [] := by
        rintro rfl
        rw [hap] at hapart
        cases hapart
      have hm : operandsSideBySide (n.left :: gap ++ n.right :: b) ≠ none := by
        have := operandsSideBySide_eq_some_iff.mpr ⟨[n.left], gap, n.right :: b.takeWhile isOperandChar,
          b.dropWhile isOperandChar, rfl, rfl,
          ⟨by simp, by simpa using hleft⟩, ⟨hgne, hgap⟩,
          ⟨by simp, by
            intro c hc
            rcases List.mem_cons.mp hc with rfl | hc
            · exact hright
            · exact List.mem_takeWhile_imp hc⟩, beginsWithout_dropWhile _ _⟩
        simp only [List.nil_append, List.cons_append, List.takeWhile_append_dropWhile] at this ⊢
        simp [this]
      exact absurd (h _ ⟨a, by simp⟩) hm
  · rintro h t ⟨a, rfl⟩
    cases hm : operandsSideBySide t with
    | none => rfl
    | some piece =>
      obtain ⟨first, gap, second, rest, rfl, -, ⟨hfne, hf⟩, ⟨hgne, hg⟩, ⟨hsne, hs⟩, -⟩ :=
        operandsSideBySide_eq_some_iff.mp hm
      obtain ⟨front, x, rfl⟩ : ∃ front x, first = front ++ [x] :=
        ⟨_, _, (List.dropLast_concat_getLast hfne).symm⟩
      cases second with
      | nil => exact absurd rfl hsne
      | cons y second =>
        have hx := hf x (by simp)
        have hy := hs y (by simp)
        have hn : (⟨x, true, y⟩ : Neighbours) ∈ neighbours
            (a ++ (front ++ [x] ++ (gap ++ (y :: second ++ rest)))) :=
          mem_neighbours_iff.mpr ⟨a ++ front, gap, second ++ rest, by simp, hg,
            isBlank_of_isOperandChar hx, isBlank_of_isOperandChar hy, by cases gap <;> simp at hgne ⊢⟩
        have := h _ hn
        simp [Neighbours.sideBySide, hx, hy] at this

/-! ## Operators out of place -/

/-- What may not follow a mark that awaits an operand. -/
def Neighbours.clash (n : Neighbours) : Bool := awaitsOperand n.left && clashes n.left n.right

theorem awaitsOperand_of_isBlank {c : Char} (h : isBlank c = true) : awaitsOperand c = false := by
  simp only [isBlank, Bool.or_eq_true, beq_iff_eq] at h
  rcases h with ((((h | h) | h) | h) | h) | h <;> subst h <;> decide

theorem isOperandChar_of_awaitsOperand {c : Char} (h : awaitsOperand c = true) :
    isOperandChar c = false := by
  simp only [awaitsOperand, isOperator, isInfixOnly, Bool.or_eq_true, beq_iff_eq] at h
  rcases h with (((rfl | rfl) | rfl) | rfl) | rfl <;> decide

theorem isBlank_of_clashes {c d : Char} (h : clashes c d = true) : isBlank d = false := by
  simp only [clashes, isInfixOnly, Bool.or_eq_true, Bool.and_eq_true, beq_iff_eq] at h
  rcases h with ((rfl | rfl) | rfl) | ⟨rfl, -⟩ <;> decide

/-- In front of a mark the match is a matter of this mark and the next. -/
theorem operatorOutOfPlace_cons (c : Char) (s : List Char) : operatorOutOfPlace (c :: s) =
    if awaitsOperand c then
      (s.dropWhile isBlank).head?.bind fun d =>
        if clashes c d then some (c :: s.takeWhile isBlank ++ [d]) else none
    else none := by
  simp only [operatorOutOfPlace]
  cases s.dropWhile isBlank <;> rfl

theorem operatorOutOfPlace_cons_eq_none_iff {c : Char} {s : List Char} :
    operatorOutOfPlace (c :: s) = none ↔ ∀ n ∈ withNext c s, n.clash = false := by
  unfold operatorOutOfPlace withNext Neighbours.clash
  cases hr : s.dropWhile isBlank with
  | nil => simp [hr]
  | cons d rest => cases hc : awaitsOperand c <;> cases hcl : clashes c d <;> simp [hr, hc, hcl]

/-- **No operator is out of place** exactly if no neighbours clash. -/
theorem findOperatorOutOfPlace_eq_none_iff {s : List Char} :
    findOperatorOutOfPlace s = none ↔ ∀ n ∈ neighbours s, n.clash = false := by
  unfold findOperatorOutOfPlace
  induction s with
  | nil => simp [leftmost, operatorOutOfPlace, neighbours]
  | cons c s ih =>
    have hsplit : leftmost operatorOutOfPlace (c :: s) = none ↔
        operatorOutOfPlace (c :: s) = none ∧ leftmost operatorOutOfPlace s = none := by
      rw [leftmost]
      cases operatorOutOfPlace (c :: s) <;> simp
    rw [hsplit, ih, operatorOutOfPlace_cons_eq_none_iff]
    cases hc : isBlank c with
    | true =>
      rw [neighbours_cons_of_blank hc, and_iff_right]
      intro n hn
      obtain ⟨_, _, _, _, _, rfl, _⟩ := withNext_eq_some_iff.mp hn
      simp [Neighbours.clash, awaitsOperand_of_isBlank hc]
    | false =>
      rw [neighbours_cons_of_mark hc]
      simp [or_imp, forall_and]

end Reckoner
