import Reckoner.Proofs.Text.Runs

/-!
# Replacing runs

`replaceRuns p f s` is `s` with `f w` in place of each maximal run `w` of `p` characters; everything
between the runs stays.

* `replaceRuns_append_of_none` — characters outside `p` stay.
* `replaceRuns_append_run` — a run in front of a text that begins without a `p` character is replaced as
  one piece.
* `replaceRuns_append_of_beginsWithout` — a text may be cut in front of a character outside `p`.
-/

set_option autoImplicit false

namespace Reckoner

/-- The text when `run`, last character first, has been read just before it. -/
def replaceRunsFrom (p : Char → Bool) (f : List Char → List Char) (run : List Char) :
    List Char → List Char
  | [] => (finishedRun run).flatMap f
  | c :: s =>
    if p c then replaceRunsFrom p f (c :: run) s
    else (finishedRun run).flatMap f ++ c :: replaceRunsFrom p f [] s

/-- The text with `f w` in place of each maximal run `w` of `p` characters. -/
def replaceRuns (p : Char → Bool) (f : List Char → List Char) (s : List Char) : List Char :=
  replaceRunsFrom p f [] s

variable {p : Char → Bool} {f : List Char → List Char}

@[simp] theorem replaceRuns_nil : replaceRuns p f [] = [] := rfl

theorem replaceRuns_cons_of_not {c : Char} (s : List Char) (h : p c = false) :
    replaceRuns p f (c :: s) = c :: replaceRuns p f s := by
  unfold replaceRuns
  rw [replaceRunsFrom, h]
  rfl

/-- Characters outside `p` stay. -/
theorem replaceRuns_append_of_none {a : List Char} (ha : ∀ c ∈ a, p c = false) (s : List Char) :
    replaceRuns p f (a ++ s) = a ++ replaceRuns p f s := by
  induction a with
  | nil => rfl
  | cons c a ih =>
    rw [List.cons_append, replaceRuns_cons_of_not _ (ha c (by simp)), ih fun d hd => ha d (by simp [hd]),
      List.cons_append]

/-- A text without `p` characters stays as it is. -/
theorem replaceRuns_eq_self {s : List Char} (hs : ∀ c ∈ s, p c = false) : replaceRuns p f s = s := by
  have h := replaceRuns_append_of_none (f := f) hs []
  rwa [replaceRuns_nil, List.append_nil] at h

theorem replaceRunsFrom_append {w : List Char} (hw : ∀ c ∈ w, p c = true) (run s : List Char) :
    replaceRunsFrom p f run (w ++ s) = replaceRunsFrom p f (w.reverse ++ run) s := by
  induction w generalizing run with
  | nil => rfl
  | cons c w ih =>
    rw [List.cons_append, replaceRunsFrom, if_pos (hw c (by simp)), ih fun d hd => hw d (by simp [hd]),
      List.reverse_cons, List.append_assoc, List.singleton_append]

/-- A begun run ends where the text begins without a `p` character. -/
theorem replaceRunsFrom_of_beginsWithout (run : List Char) {s : List Char} (h : BeginsWithout p s) :
    replaceRunsFrom p f run s = (finishedRun run).flatMap f ++ replaceRuns p f s := by
  cases s with
  | nil => simp [replaceRunsFrom]
  | cons c s =>
    have hc := beginsWithout_cons.mp h
    rw [replaceRuns_cons_of_not s hc, replaceRunsFrom, hc]
    rfl

/-- A run in front of a text that begins without a `p` character is replaced as one piece. -/
theorem replaceRuns_append_run {w rest : List Char} (hne : w ≠ []) (hw : ∀ c ∈ w, p c = true)
    (hr : BeginsWithout p rest) : replaceRuns p f (w ++ rest) = f w ++ replaceRuns p f rest := by
  have h := replaceRunsFrom_append (f := f) hw [] rest
  rw [List.append_nil, replaceRunsFrom_of_beginsWithout _ hr, finishedRun_of_ne_nil (by simpa using hne),
    List.reverse_reverse, List.flatMap_singleton] at h
  exact h

/-- A text of `p` characters is replaced as one piece. -/
theorem replaceRuns_eq_apply {w : List Char} (hne : w ≠ []) (hw : ∀ c ∈ w, p c = true) :
    replaceRuns p f w = f w := by
  have h := replaceRuns_append_run (f := f) hne hw beginsWithout_nil
  rwa [replaceRuns_nil, List.append_nil, List.append_nil] at h

/-- A text may be cut in front of a character outside `p`. -/
theorem replaceRuns_append_of_beginsWithout {s t : List Char} (ht : BeginsWithout p t) :
    replaceRuns p f (s ++ t) = replaceRuns p f s ++ replaceRuns p f t := by
  induction s using runInduction p with
  | nil => rfl
  | other c s hc ih =>
    rw [List.cons_append, replaceRuns_cons_of_not _ hc, replaceRuns_cons_of_not _ hc, ih, List.cons_append]
  | run w s hne hw hs ih =>
    rw [List.append_assoc, replaceRuns_append_run hne hw (hs.append ht), replaceRuns_append_run hne hw hs, ih,
      List.append_assoc]

end Reckoner
