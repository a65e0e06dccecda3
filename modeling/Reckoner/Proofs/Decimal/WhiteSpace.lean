import Mathlib.Data.List.TakeWhile
import Reckoner.Decimal.Reading
import Reckoner.Proofs.Text.Neighbours
import Reckoner.Text.WhiteSpace

/-!
# Numerals and the white space around them

* `isWhiteSpace_of_mem_numeral` — no numeral contains white space.
* `read_trimWhiteSpace_eq_ok_iff` — so a text without the white space at its ends is a numeral exactly if
  the text is that numeral with white space around it, in whatever way it is cut.
-/

set_option autoImplicit false

namespace Reckoner.Decimal

theorem isWhiteSpace_of_isDigit {c : Char} (h : c.isDigit = true) : isWhiteSpace c = false := by
  have hdigit : (decide (48 ≤ c.val) && decide (c.val ≤ 57)) = true := h
  simp only [Bool.and_eq_true, decide_eq_true_eq, UInt32.le_iff_toNat_le] at hdigit
  have hlow : 48 ≤ c.toNat := hdigit.1
  have hhigh : c.toNat ≤ 57 := hdigit.2
  simp only [isWhiteSpace, whiteSpaceRanges, List.any_cons, List.any_nil, Bool.or_eq_false_iff,
    Bool.and_eq_false_iff, decide_eq_false_iff_not, and_true]
  omega

theorem toLower_of_isWhiteSpace {c : Char} (h : isWhiteSpace c = true) : c.toLower = c := by
  have hupper : ¬ (65 ≤ c.val ∧ c.val ≤ 90) := by
    rintro ⟨hlow, hhigh⟩
    have hlow : 65 ≤ c.toNat := hlow
    have hhigh : c.toNat ≤ 90 := hhigh
    simp only [isWhiteSpace, whiteSpaceRanges, List.any_cons, List.any_nil, Bool.or_eq_true,
      Bool.and_eq_true, decide_eq_true_eq, Bool.false_eq_true, or_false] at h
    omega
  unfold Char.toLower
  exact dif_neg hupper

/-- A numeral that is a word contains no white space. -/
theorem isWhiteSpace_of_mem_word {s : List Char} {v : Float} (h : readWord? s = some v) :
    ∀ c ∈ s, isWhiteSpace c = false := by
  have hword : ∀ w : String, String.ofList (s.map Char.toLower) = w →
      (w.toList.any isWhiteSpace) = false → ∀ c ∈ s, isWhiteSpace c = false := by
    rintro _ rfl hw c hc
    rw [String.toList_ofList] at hw
    cases hspace : isWhiteSpace c with
    | false => rfl
    | true =>
      have hlower := List.any_eq_false.mp hw c.toLower (List.mem_map_of_mem hc)
      rw [toLower_of_isWhiteSpace hspace] at hlower
      exact absurd hspace hlower
  unfold readWord? at h
  split at h
  · rename_i heq
    exact hword _ heq (by decide)
  · rename_i heq
    exact hword _ heq (by decide)
  · rename_i heq
    exact hword _ heq (by decide)
  · cases h

theorem splitSign_cases (s : List Char) :
    s = (splitSign s).2 ∨ ∃ sign, isWhiteSpace sign = false ∧ s = sign :: (splitSign s).2 := by
  unfold splitSign
  split
  · exact Or.inr ⟨'-', by decide, rfl⟩
  · exact Or.inr ⟨'+', by decide, rfl⟩
  · exact Or.inl rfl

theorem isWhiteSpace_of_mem_signed {s : List Char}
    (h : ∀ c ∈ (splitSign s).2, isWhiteSpace c = false) : ∀ c ∈ s, isWhiteSpace c = false := by
  rcases splitSign_cases s with heq | ⟨sign, hsign, heq⟩
  · rwa [← heq] at h
  · rw [heq]
    exact List.forall_mem_cons.mpr ⟨hsign, h⟩

theorem isWhiteSpace_of_mem_exponent {s : List Char} {n : Int} (h : readExponent? s = some n) :
    ∀ c ∈ s, isWhiteSpace c = false := by
  unfold readExponent? at h
  split at h
  · simp
  · rename_i mark s
    split at h
    · rename_i hmark
      simp only at h
      split at h
      · rename_i hdigits
        refine List.forall_mem_cons.mpr ⟨?_, isWhiteSpace_of_mem_signed fun c hc => ?_⟩
        · rcases hmark with rfl | rfl <;> decide
        · exact isWhiteSpace_of_isDigit (List.all_eq_true.mp hdigits.2 c hc)
      · cases h
    · cases h

theorem isWhiteSpace_of_mem_takeWhile (s : List Char) :
    ∀ c ∈ s.takeWhile Char.isDigit, isWhiteSpace c = false :=
  fun _ hc => isWhiteSpace_of_isDigit (List.mem_takeWhile_imp hc)

theorem isWhiteSpace_of_mem_fraction {s : List Char}
    (h : ∀ c ∈ (splitFraction s).2, isWhiteSpace c = false) : ∀ c ∈ s, isWhiteSpace c = false := by
  unfold splitFraction at h
  split at h
  · rename_i s
    rw [← List.takeWhile_append_dropWhile (p := Char.isDigit) (l := s)]
    intro c hc
    rcases List.mem_cons.mp hc with rfl | hc
    · decide
    · rcases List.mem_append.mp hc with hc | hc
      · exact isWhiteSpace_of_mem_takeWhile s c hc
      · exact h c hc
  · exact h

theorem isWhiteSpace_of_mem_digits {s : List Char} {v : Float} (h : readDigits? s = some v) :
    ∀ c ∈ s, isWhiteSpace c = false := by
  unfold readDigits? at h
  simp only at h
  split at h
  · cases h
  · split at h
    · cases h
    · rename_i n hn
      intro c hc
      rw [← List.takeWhile_append_dropWhile (p := Char.isDigit) (l := s)] at hc
      rcases List.mem_append.mp hc with hc | hc
      · exact isWhiteSpace_of_mem_takeWhile s c hc
      · exact isWhiteSpace_of_mem_fraction (isWhiteSpace_of_mem_exponent hn) c hc

/-- **No numeral contains white space.** -/
theorem isWhiteSpace_of_mem_numeral {s : List Char} {v : Float} (h : read s = .ok v) :
    ∀ c ∈ s, isWhiteSpace c = false := by
  unfold read at h
  split at h
  · cases h
  · simp only at h
    apply isWhiteSpace_of_mem_signed
    split at h
    · cases h
    · rename_i w hw
      unfold readUnsigned? at hw
      split at hw
      · rename_i hword
        exact isWhiteSpace_of_mem_word hword
      · exact isWhiteSpace_of_mem_digits hw

/-- **A numeral between white space** is what trimming finds. -/
theorem read_trimWhiteSpace_eq_ok_iff {s : List Char} {v : Float} :
    read (trimWhiteSpace s) = .ok v ↔ ∃ lead body trail, s = lead ++ body ++ trail ∧
      (∀ c ∈ lead, isWhiteSpace c = true) ∧ (∀ c ∈ trail, isWhiteSpace c = true) ∧
      read body = .ok v := by
  constructor
  · intro h
    obtain ⟨lead, trail, heq, hlead, htrail⟩ := exists_append_trimWhile isWhiteSpace s
    exact ⟨lead, trimWhiteSpace s, trail, heq, hlead, htrail, h⟩
  · rintro ⟨lead, body, trail, rfl, hlead, htrail, h⟩
    have hsolid := isWhiteSpace_of_mem_numeral h
    unfold trimWhiteSpace
    rw [trimWhile_append_append isWhiteSpace body hlead htrail, trimWhile_eq_self]
    · exact h
    · exact fun c hc => hsolid c (List.mem_of_mem_head? hc)
    · exact fun c hc => hsolid c (List.mem_of_mem_getLast? hc)

end Reckoner.Decimal
