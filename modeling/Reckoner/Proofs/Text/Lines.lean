import Reckoner.Text.Line

/-!
# What the lines of an input are

* `Cut bs pieces` — the pieces are had by cutting the input behind each newline. `cut_lines`, `Cut.eq_lines`: these
  are the lines, and there is no other way to cut.
* `lines_cons`, `tail_lines`, `getD_lines_succ` — the first line and the further ones.
-/

set_option autoImplicit false

namespace Reckoner

/-! ## First line and further lines -/

theorem lines_cons (b : UInt8) (bs : Bytes) :
    lines (b :: bs) = (takeLine (b :: bs)).1 :: lines (takeLine (b :: bs)).2 := by
  rw [lines]

theorem lines_nil : lines [] = [] := by
  rw [lines]

/-- Where there is no line, the first line is taken to have no bytes. -/
theorem getD_lines_zero (bs : Bytes) : (lines bs).getD 0 [] = (takeLine bs).1 := by
  cases bs with
  | nil => rw [lines_nil]; rfl
  | cons b bs => rw [lines_cons]; rfl

/-- The further lines are those of the rest, also where there is nothing left. -/
theorem tail_lines (bs : Bytes) : (lines bs).tail = lines (takeLine bs).2 := by
  cases bs with
  | nil => rw [show (takeLine []).2 = [] from rfl, lines_nil, List.tail_nil]
  | cons b bs => rw [lines_cons, List.tail_cons]

theorem getD_lines_succ (bs : Bytes) (i : Nat) :
    (lines bs).getD (i + 1) [] = (lines (takeLine bs).2).getD i [] := by
  rw [← tail_lines, List.getD_eq_getElem?_getD, List.getD_eq_getElem?_getD, List.getElem?_tail]

theorem flatten_drop_lines_succ (bs : Bytes) (n : Nat) :
    ((lines bs).drop (n + 1)).flatten = ((lines (takeLine bs).2).drop n).flatten := by
  rw [← tail_lines, List.drop_tail]

/-- No line is without bytes. -/
theorem ne_nil_of_mem_lines {line bs : Bytes} (h : line ∈ lines bs) : line ≠ [] := by
  fun_induction lines bs with
  | case1 => cases h
  | case2 b bs ih =>
    rcases List.mem_cons.mp h with rfl | h
    · exact takeLine_cons_ne_nil b bs
    · exact ih h

/-! ## Cutting behind each newline -/

/-- The input is cut behind each newline. What follows the last one is a piece if it has any bytes. -/
inductive Cut : Bytes → List Bytes → Prop where
  | nothing : Cut [] []
  | rest {body : Bytes} (hne : body ≠ []) (hbody : newline ∉ body) : Cut body [body]
  | line {body bs : Bytes} {pieces : List Bytes} (hbody : newline ∉ body) (h : Cut bs pieces) :
      Cut (body ++ newline :: bs) ((body ++ [newline]) :: pieces)

theorem takeLine_of_not_mem {body : Bytes} (h : newline ∉ body) : takeLine body = (body, []) := by
  induction body with
  | nil => rfl
  | cons b body ih =>
    have hb : b ≠ newline := fun heq => h (heq ▸ List.mem_cons_self)
    rw [takeLine, if_neg hb, ih fun hmem => h (List.mem_cons_of_mem b hmem)]

theorem takeLine_append_newline {body : Bytes} (h : newline ∉ body) (bs : Bytes) :
    takeLine (body ++ newline :: bs) = (body ++ [newline], bs) := by
  induction body with
  | nil => rw [List.nil_append, takeLine, if_pos rfl]; rfl
  | cons b body ih =>
    have hb : b ≠ newline := fun heq => h (heq ▸ List.mem_cons_self)
    rw [List.cons_append, takeLine, if_neg hb, ih fun hmem => h (List.mem_cons_of_mem b hmem)]
    rfl

/-- **The lines are such pieces.** -/
theorem cut_lines (bs : Bytes) : Cut bs (lines bs) := by
  fun_induction lines bs with
  | case1 => exact .nothing
  | case2 b bs ih =>
    by_cases hnewline : newline ∈ b :: bs
    · obtain ⟨body, rest, heq, hbody⟩ := List.eq_append_cons_of_mem hnewline
      rw [heq, takeLine_append_newline hbody] at ih ⊢
      exact .line hbody ih
    · rw [takeLine_of_not_mem hnewline, lines_nil]
      exact .rest (List.cons_ne_nil b bs) hnewline

/-- There is no other way to cut. -/
theorem Cut.eq_lines {bs : Bytes} {pieces : List Bytes} (h : Cut bs pieces) : pieces = lines bs := by
  induction h with
  | nothing => exact lines_nil.symm
  | @rest body hne hbody =>
    obtain ⟨b, bs, rfl⟩ := List.exists_cons_of_ne_nil hne
    rw [lines_cons, takeLine_of_not_mem hbody, lines_nil]
  | @line body bs pieces hbody h ih =>
    obtain ⟨b, rest, heq⟩ := List.exists_cons_of_ne_nil
      (List.append_ne_nil_of_right_ne_nil body (List.cons_ne_nil newline bs))
    rw [heq, lines_cons, ← heq, takeLine_append_newline hbody, ih]

end Reckoner
