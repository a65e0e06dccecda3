/-!
# Maximal runs

`runs p s` lists, from left to right, the longest unbroken stretches of `p` characters in `s`. The
names of an expression are its runs of letters.

A run is built character by character; `runsFrom p run s` carries the part of the current run that
was already read, last character first.
-/

set_option autoImplicit false

namespace Reckoner

/-- The list that holds the finished run, or nothing if no run was begun. -/
def finishedRun : List Char → List (List Char)
  | [] => []
  | run => [run.reverse]

/-- The runs of `s` when `run`, last character first, has been read just before it. -/
def runsFrom (p : Char → Bool) (run : List Char) : List Char → List (List Char)
  | [] => finishedRun run
  | c :: s => if p c then runsFrom p (c :: run) s else finishedRun run ++ runsFrom p [] s

/-- The maximal runs of `p` characters in `s`, from left to right. -/
def runs (p : Char → Bool) (s : List Char) : List (List Char) :=
  runsFrom p [] s

@[simp] theorem runs_nil (p : Char → Bool) : runs p [] = [] := rfl

theorem runs_cons_of_not (p : Char → Bool) {c : Char} (s : List Char) (h : p c = false) :
    runs p (c :: s) = runs p s := by
  unfold runs
  rw [runsFrom, h]
  rfl

theorem runsFrom_append (p : Char → Bool) (w : List Char) (hw : ∀ c ∈ w, p c = true) :
    ∀ run s, runsFrom p run (w ++ s) = runsFrom p (w.reverse ++ run) s := by
  induction w with
  | nil => intro run s; rfl
  | cons c w ih =>
    intro run s
    have hc : p c = true := hw c List.mem_cons_self
    rw [List.cons_append, runsFrom, if_pos hc, ih fun d hd => hw d (List.mem_cons_of_mem c hd)]
    rw [List.reverse_cons, List.append_assoc, List.singleton_append]

/-- What is left after the longest run of `p` characters is shorter if there is such a run. -/
theorem length_dropWhile_lt {p : Char → Bool} {c : Char} {s : List Char} (h : p c = true) :
    ((c :: s).dropWhile p).length < (c :: s).length := by
  rw [List.dropWhile_cons, if_pos h, List.length_cons]
  exact Nat.lt_succ_of_le (List.dropWhile_suffix p).length_le

end Reckoner
