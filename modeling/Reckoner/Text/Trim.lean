/-!
# Cutting the ends of a text

* `dropEndWhile p s` — `s` without its longest ending made of `p` characters.
* `trimWhile p s` — `s` without such a beginning and without such an ending.

Nothing inside the text is touched: `trimWhile_eq_self` says that a text which neither begins nor
ends with a `p` character is its own trimmed form.
-/

set_option autoImplicit false

namespace Reckoner

/-- `s` without its longest ending of characters that satisfy `p`. -/
def dropEndWhile (p : Char → Bool) (s : List Char) : List Char :=
  (s.reverse.dropWhile p).reverse

/-- `s` without its longest beginning and its longest ending of `p` characters. -/
def trimWhile (p : Char → Bool) (s : List Char) : List Char :=
  dropEndWhile p (s.dropWhile p)

@[simp] theorem dropEndWhile_nil (p : Char → Bool) : dropEndWhile p [] = [] := rfl

/-- What `dropEndWhile` removes is an ending of `p` characters. -/
theorem dropEndWhile_append_reverse (p : Char → Bool) (s : List Char) :
    dropEndWhile p s ++ (s.reverse.takeWhile p).reverse = s := by
  unfold dropEndWhile
  rw [← List.reverse_append, List.takeWhile_append_dropWhile, List.reverse_reverse]

/-- Characters of the kind at the end make no difference. -/
theorem dropEndWhile_append (p : Char → Bool) (s : List Char) {trail : List Char}
    (htrail : ∀ c ∈ trail, p c = true) : dropEndWhile p (s ++ trail) = dropEndWhile p s := by
  unfold dropEndWhile
  rw [List.reverse_append,
    List.dropWhile_append_of_pos fun c hc => htrail c (List.mem_reverse.mp hc)]

/-- A text whose last character stays is kept whole. -/
theorem dropEndWhile_eq_self (p : Char → Bool) (s : List Char) (hlast : ∀ c ∈ s.getLast?, p c = false) :
    dropEndWhile p s = s := by
  unfold dropEndWhile
  cases hr : s.reverse with
  | nil => rw [List.reverse_eq_nil_iff.mp hr]; rfl
  | cons c r =>
    have hc : p c = false := by
      apply hlast c
      rw [List.getLast?_eq_head?_reverse, hr]
      rfl
    rw [List.dropWhile_cons, hc, ← hr]
    exact List.reverse_reverse s

/-- Nor do they at either end. -/
theorem trimWhile_append_append (p : Char → Bool) (s : List Char) {lead trail : List Char}
    (hlead : ∀ c ∈ lead, p c = true) (htrail : ∀ c ∈ trail, p c = true) :
    trimWhile p (lead ++ s ++ trail) = trimWhile p s := by
  unfold trimWhile
  rw [List.append_assoc, List.dropWhile_append_of_pos hlead, List.dropWhile_append]
  split
  · rename_i hs
    have hnone : (trail ++ []).dropWhile p = [].dropWhile p := List.dropWhile_append_of_pos htrail
    rw [List.append_nil] at hnone
    rw [hnone, List.isEmpty_iff.mp hs]
    rfl
  · exact dropEndWhile_append p _ htrail

/-- A text whose first and last characters stay is its own trimmed form. -/
theorem trimWhile_eq_self (p : Char → Bool) (s : List Char)
    (hfirst : ∀ c ∈ s.head?, p c = false) (hlast : ∀ c ∈ s.getLast?, p c = false) :
    trimWhile p s = s := by
  have hfront : s.dropWhile p = s := by
    cases s with
    | nil => rfl
    | cons c r => rw [List.dropWhile_cons, hfirst c rfl]; rfl
  unfold trimWhile
  rw [hfront, dropEndWhile_eq_self p s hlast]

end Reckoner
